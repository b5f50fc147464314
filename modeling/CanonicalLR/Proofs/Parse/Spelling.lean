import CanonicalLR.Proofs.Parse.Faults

/-!
# Spellings of names

A parser looks a token up by its name without the blanks at its ends, but a reduction compares the
name as it is.  So a token with blanks at the ends of its name may be shifted, and then a reduction
that takes it from the stack fails.  There is no other fault of an engine
(`Parser.inconsistent_iff_takesUntrimmed`).

The name of the end of the input is refused only as it is.  With blanks at its ends it passes for the
end of the input (`Parser.PassesForEnd`), and no other name does (`Parser.acts_as_end_iff`).
-/

namespace CanonicalLR.Parser

open Engine

variable {p : Parser} {policy : Policy} {e e₁ : Engine StateId} {lookahead : Option Token}
  {states : List StateId} {symbols : List Symbol} {s : StateId} {r : Rule} {t : Token} {y : Symbol}
  {x : Node} {cap : Nat} {ts : Set Token} {production : Production} {items : List Symbol}
  {taken : List Node} {fault : Fault StateId}

/-! ### Reductions of untrimmed tokens -/

/-- The next turn is a reduction that takes a token from the stack, and there are blanks at the ends
of its name. -/
def TakesUntrimmed (p : Parser) (e : Engine StateId) (lookahead : Option Token) : Prop :=
  ∃ s r t, e.states.head? = some s ∧
    p.definition.action s (lookahead.map (·.name)) = some (.reduce r) ∧
    .token t ∈ e.nodes.take r.arity ∧ Text.trim t.name ≠ t.name

/-- A node has the label of the symbol that it fits, but for the blanks at the ends of the name of a
token. -/
theorem label_eq_iff_of_fits (hg : p.grammar.WellFormed) (h : p.Fits y x) :
  x.label = p.grammar.grammar.label y ↔ ∀ t, .token t = x → Text.trim t.name = t.name
  := by
  obtain ⟨k, id⟩ := y
  cases k with
  | term =>
    cases h with
    | term _ _ _ =>
      constructor
      · rintro - t ⟨⟩
      · intro _
        rfl
  | token =>
    obtain ⟨t, rfl, hcolumn⟩ := h
    obtain ⟨-, -, hname⟩ := (column?_eq_some_iff hg).mp hcolumn
    constructor
    · rintro hlabel _ ⟨⟩
      rw [← hname]
      apply (Label.mk.inj hlabel).2.symm
    · intro htrim
      rw [Grammar.label]
      apply congrArg (Label.mk .token)
      rw [← htrim t rfl, ← hname]
      rfl
  | prompt => cases h

/-- Nodes that fit a right side can be arranged if there are no blanks at the ends of the names of the
tokens among them, and only then. -/
theorem exists_arrange_iff (hg : p.grammar.WellFormed)
    (h : List.Forall₂ p.Fits (items.filter Symbol.isBasic) taken) :
  (∃ children, Engine.arrange (σ := StateId) production (items.map p.grammar.grammar.label) taken =
      .ok children) ↔
    ∀ t, .token t ∈ taken → Text.trim t.name = t.name
  := by
  induction items generalizing taken with
  | nil =>
    cases h
    constructor
    · rintro - t ⟨⟩
    · intro _
      use []
      rfl
  | cons y items ih =>
    by_cases hprompt : y.kind = .prompt
    · rw [List.filter_cons_of_neg (by simp [Symbol.isBasic, hprompt])] at h
      rw [← ih h, List.map_cons, Grammar.label, hprompt, arrange_prompt]
      constructor
      · rintro ⟨children, hchildren⟩
        obtain ⟨rest, hrest, -⟩ := Grammar.exists_of_map_eq_ok hchildren
        use rest
      · rintro ⟨rest, hrest⟩
        rw [hrest]
        use .prompt (p.grammar.grammar.nameOf y) :: rest
        rfl
    · rw [List.filter_cons_of_pos (by simp [Symbol.isBasic, hprompt])] at h
      obtain ⟨x, taken, hx, htaken, rfl⟩ := List.forall₂_cons_left_iff.mp h
      simp only [List.mem_cons, or_imp, forall_and]
      rw [← ih htaken, ← label_eq_iff_of_fits hg hx, List.map_cons]
      constructor
      · rintro ⟨children, hchildren⟩
        obtain ⟨rest, hlabel, hrest, -⟩ := exists_of_arrange_cons hprompt hchildren
        use hlabel, rest
      · rintro ⟨hlabel, rest, hrest⟩
        rw [arrange_cons hprompt hlabel, hrest]
        use x :: rest
        rfl

namespace Path

/-- A reduction finds what it should if there are no blanks at the ends of the names of the tokens that
it takes, and only then. -/
theorem exists_arrangement_iff (hp : p.IsMade policy) (h : p.Path e.states symbols e.nodes)
    (hs : e.states.head? = some s)
    (haction : p.definition.action s (lookahead.map (·.name)) = some (.reduce r)) :
  (∃ children, e.arrangement p.definition r = .ok children) ↔
    ∀ t, .token t ∈ e.nodes.take r.arity → Text.trim t.name = t.name
  := by
  rw [Engine.arrangement, IsMade.arity_production]
  apply (exists_arrange_iff hp.grammar (h.fits_rule hp hs haction)).trans
  simp only [List.mem_reverse]

/-- A turn fails if it takes a token with blanks at the ends of its name, and only then. -/
theorem failed_iff (hp : p.IsMade policy) (h : p.Path e.states symbols e.nodes) :
  (∃ fault, (e.advance p.definition lookahead).outcome = .failed fault) ↔
    p.TakesUntrimmed e lookahead
  := by
  constructor
  · rintro ⟨fault, hfailed⟩
    have hturned := turned_advance p.definition e lookahead
    rw [hfailed] at hturned
    obtain ⟨s, r, _, _, hs, haction, harrange, -⟩ := h.failed hp hturned
    have hnone : ¬ ∃ children, e.arrangement p.definition r = .ok children := by
      rintro ⟨children, hchildren⟩
      rw [harrange] at hchildren
      cases hchildren
    rw [h.exists_arrangement_iff hp hs haction] at hnone
    push Not at hnone
    obtain ⟨t, ht, htrim⟩ := hnone
    use s, r, t
  · rintro ⟨s, r, t, hs, haction, ht, htrim⟩
    cases harrange : e.arrangement p.definition r with
    | error fault =>
      use fault
      apply failed_of_arrangement hs haction (h.supports hp hs haction) harrange
    | ok children =>
      apply absurd _ htrim
      apply (h.exists_arrangement_iff hp hs haction).mp ⟨children, harrange⟩ t ht

/-- The parser knows the names of the tokens on a path. -/
theorem exists_column_of_token_mem (h : p.Path states symbols taken) (ht : .token t ∈ taken) :
  ∃ n, p.column? (some t.name) = some n
  := by
  induction h with
  | start => cases ht
  | @step _ _ _ _ _ _ y x _ _ _ hx ih =>
    rcases List.mem_cons.mp ht with rfl | ht
    · obtain ⟨k, n⟩ := y
      cases k with
      | term => cases hx
      | token =>
        obtain ⟨_, heq, hcolumn⟩ := hx
        cases heq
        use n
      | prompt => cases hx
    · apply ih ht

end Path

namespace IsMade

/-- When an engine is driven, a reduction finds another label than it should if a token with blanks at
the ends of its name is taken after some reductions, and only then. -/
theorem drive_inconsistent_iff (hp : p.IsMade policy) (h : p.Path e.states symbols e.nodes) :
  (∃ rule expected found,
      (e.drive p.definition lookahead).outcome = .error (.inconsistent rule expected found)) ↔
    ∃ e₁, Relation.ReflTransGen (Reduces p.definition lookahead) e e₁ ∧ p.TakesUntrimmed e₁ lookahead
  := by
  have hdriven := hp.driven e lookahead
  constructor
  · rintro ⟨rule, expected, found, hfault⟩
    rw [hfault] at hdriven
    obtain ⟨e₁, hreductions, hfailed⟩ := hdriven.exists_failed
    obtain ⟨symbols', hpath⟩ := h.reductions hp hreductions
    use e₁, hreductions
    apply (hpath.failed_iff hp).mp ⟨_, hfailed⟩
  · rintro ⟨e₁, hreductions, htakes⟩
    obtain ⟨symbols', hpath⟩ := h.reductions hp hreductions
    obtain ⟨fault, hfailed⟩ := (hpath.failed_iff hp).mpr htakes
    have hturned := turned_advance p.definition e₁ lookahead
    rw [hfailed] at hturned
    obtain ⟨_, r, expected, found, -, -, -, hfault⟩ := hpath.failed hp hturned
    use p.definition.production r, expected, found
    rw [← hfault]
    apply hdriven.eq_error hreductions hfailed

/-- There are no faults if there are no blanks at the ends of the names of tokens that the parser
knows. -/
theorem not_faultOfTurn (hp : p.IsMade policy)
    (hts : ∀ t ∈ ts, Text.trim t.name = t.name ∨ p.column? (some t.name) = none) :
  ¬ FaultOfTurn p.definition cap ts fault
  := by
  rintro ⟨e, lookahead, hreachable, -, hfailed⟩
  obtain ⟨symbols, hpath⟩ := hp.exists_path hreachable
  obtain ⟨s, r, t, -, -, ht, htrim⟩ := (hpath.failed_iff hp).mp ⟨fault, hfailed⟩
  have hmem := List.mem_of_mem_take ht
  obtain ⟨n, hcolumn⟩ := hpath.exists_column_of_token_mem hmem
  rcases hts t (hreachable.mem_of_token_mem hmem) with htrimmed | hnone
  · apply htrim htrimmed
  · rw [hcolumn] at hnone
    cases hnone

end IsMade

variable {g : Grammar} {settings : Settings}

/-- When an engine is driven, a reduction finds another label than it should exactly if a token with
blanks at the ends of its name is taken from the stack after some reductions.  If no token that is
offered has such a name, or the parser does not know it, then there are no faults at all. -/
theorem inconsistent_iff_takesUntrimmed (hg : g.Built) (hp : Parser.build settings g = .ok p)
    (cap : Nat) (ts : Set Token) :
  (∀ (e : Engine StateId) lookahead, e.Reachable p.definition cap ts →
    ((∃ rule expected found,
        (e.drive p.definition lookahead).outcome = .error (.inconsistent rule expected found)) ↔
      ∃ e₁, Relation.ReflTransGen (Reduces p.definition lookahead) e e₁ ∧
        p.TakesUntrimmed e₁ lookahead)) ∧
  ((∀ t ∈ ts, Text.trim t.name = t.name ∨ p.column? (some t.name) = none) →
    (∀ e : Engine StateId, e.Reachable p.definition cap ts →
      (∀ t ∈ ts, (e.offer p.definition t).outcome = .ok ()) ∧
        ∃ result, (e.finish p.definition).outcome = .ok result) ∧
    ∀ tokens, (∀ t ∈ tokens, t ∈ ts) → ∃ result, p.parse tokens cap = .ok result)
  := by
  have hp := isMade_build hg.wellFormed hp
  constructor
  · intro e lookahead he
    obtain ⟨symbols, hpath⟩ := hp.exists_path he
    apply hp.drive_inconsistent_iff hpath
  · intro hts
    constructor
    · intro e he
      constructor
      · intro t ht
        cases houtcome : (e.offer p.definition t).outcome with
        | ok => rfl
        | error fault =>
          have hturn := he.faultOfTurn_offer hp.drive_ne_endless ht houtcome
          apply absurd hturn (hp.not_faultOfTurn hts)
      · cases houtcome : (e.finish p.definition).outcome with
        | ok result => use result
        | error fault =>
          have hturn := he.faultOfTurn_finish hp.drive_ne_endless houtcome
          apply absurd hturn (hp.not_faultOfTurn hts)
    · intro tokens htokens
      cases houtcome : p.parse tokens cap with
      | ok result => use result
      | error fault =>
        have hturn := faultOfTurn_parse hp.drive_ne_endless htokens houtcome
        apply absurd hturn (hp.not_faultOfTurn hts)

/-- A grammar with one sentence, which is one token. -/
def lone : Grammar :=
  ((Grammar.ofProductions "S" [⟨"S", [⟨.token, "x"⟩]⟩]).toOption).getD .empty

theorem built_lone :
  lone.Built
  := Grammar.built_getD_ofProductions

/-- The token whose name is the text. -/
def named (name : String) : Token :=
  ⟨name, name, .unknown⟩

/-- There are no faults if only the token of the sentence and one that is not known are offered. -/
theorem inconsistent_iff_takesUntrimmed_lone :
  ∃ p, Parser.build ⟨.fail, false, false⟩ lone = .ok p ∧
    ∀ tokens, (∀ t ∈ tokens, t ∈ ({named "x", named " y"} : Set Token)) →
      ∃ result, p.parse tokens 0 = .ok result
  := by
  have hrun : ((Parser.build ⟨.fail, false, false⟩ lone).toOption.map fun p =>
      p.column? (some " y")) = some none := by
    decide +kernel
  obtain ⟨p, hp, hcolumn⟩ := Option.map_eq_some_iff.mp hrun
  have hp := Grammar.eq_ok_of_toOption_eq_some hp
  use p, hp
  apply ((inconsistent_iff_takesUntrimmed built_lone hp 0 _).2 _).2
  rintro t (rfl | rfl)
  · left
    decide +kernel
  · right
    apply hcolumn

/-- A token with a blank before its name is shifted, and the reduction that takes it fails. -/
theorem inconsistent_of_blank :
  ∃ p, Parser.build ⟨.fail, false, false⟩ lone = .ok p ∧
    p.parse [named " x"] 0 =
      .error (.inconsistent ⟨"S", [⟨.token, "x"⟩]⟩ ⟨.token, "x"⟩ ⟨.token, " x"⟩)
  := by
  have hrun : ((Parser.build ⟨.fail, false, false⟩ lone).toOption.map fun p =>
      p.parse [named " x"] 0) =
        some (.error (.inconsistent ⟨"S", [⟨.token, "x"⟩]⟩ ⟨.token, "x"⟩ ⟨.token, " x"⟩)) := by
    decide +kernel
  obtain ⟨p, hp, hparse⟩ := Option.map_eq_some_iff.mp hrun
  use p, Grammar.eq_ok_of_toOption_eq_some hp, hparse

/-! ### Names that pass for the end of the input -/

/-- The name is that of the end of the input with blanks at its ends. -/
def PassesForEnd (name : String) : Prop :=
  Text.trim name = eofTokenName ∧ name ≠ eofTokenName

instance (name : String) : Decidable (PassesForEnd name) :=
  inferInstanceAs (Decidable (_ ∧ _))

/-- A name without blanks at its ends does not pass for the end of the input. -/
theorem not_passesForEnd {name : String} (h : Text.trim name = name) :
  ¬ PassesForEnd name
  := by
  rintro ⟨heof, hne⟩
  rw [h] at heof
  apply hne heof

/-- A name has the column of the end of the input if it passes for it, and only then. -/
theorem column?_eq_eof_iff (hg : p.grammar.WellFormed) {name : String} :
  p.column? (some name) = some p.grammar.eof ↔ PassesForEnd name
  := by
  rw [column?_eq_some_iff hg, hg.tokenName_eof, PassesForEnd]
  constructor
  · rintro ⟨hne, -, hname⟩
    use hname.symm
  · rintro ⟨hname, hne⟩
    use hne, hg.contains_eof, hname.symm

/-- No reachable engine has accepted the input if no name of a token passes for its end. -/
theorem IsMade.status_ne_accepted (hp : p.IsMade policy) (hts : ∀ t ∈ ts, ¬ PassesForEnd t.name)
    (h : e.Reachable p.definition cap ts) :
  e.status ≠ .accepted
  := by
  apply h.keeps (P := fun e => e.status ≠ .accepted)
  · rintro ⟨⟩
  · intro e lookahead hlookahead hend he haccepted
    rcases accept_of_status haccepted with haccepted' | ⟨s, -, haction⟩
    · apply he haccepted'
    · cases lookahead with
      | none =>
        -- At the end of the input there are only reductions, which do not change the status.
        rw [status_of_reduced (hend rfl)] at haccepted
        apply he haccepted
      | some t =>
        obtain ⟨_, hcolumn, -⟩ := hp.accept_spec haction
        apply hts t (hlookahead t rfl)
        apply (column?_eq_eof_iff hp.grammar).mp hcolumn
  · intro e t he haccepted
    apply he (status_of_complain haccepted)

/-- Exactly the names that pass for the end of the input have its column, so a parser does with them
as it does at the end.  By any other name there is no reduction but one for the token of that name,
and if no other tokens are offered, then the input is not accepted before its end. -/
theorem acts_as_end_iff (hg : g.Built) (hp : Parser.build settings g = .ok p) :
  (∀ name, p.column? (some name) = some p.grammar.eof ↔ PassesForEnd name) ∧
  (∀ name, PassesForEnd name →
    ∀ s, p.definition.action s (some name) = p.definition.action s none) ∧
  (∀ name, ¬ PassesForEnd name → ∀ s r, p.definition.action s (some name) = some (.reduce r) →
    ∃ n state entry, n ≠ p.grammar.eof ∧ p.column? (some name) = some n ∧
      p.automaton.states[s]? = some state ∧ entry ∈ state.items.entries ∧
      entry.core.isComplete ∧ entry.core.rule = r ∧ n ∈ entry.lookahead) ∧
  ∀ ts : Set Token, (∀ t ∈ ts, ¬ PassesForEnd t.name) →
    ∀ cap (e : Engine StateId), e.Reachable p.definition cap ts → e.status ≠ .accepted
  := by
  have hp := isMade_build hg.wellFormed hp
  constructor
  · intro name
    apply column?_eq_eof_iff hp.grammar
  constructor
  · intro name hname s
    have hcolumn : p.column? (some name) = p.column? none :=
      (column?_eq_eof_iff hp.grammar).mpr hname
    simp only [definition, hcolumn]
  constructor
  · intro name hname s r haction
    obtain ⟨n, state, entry, hcolumn, hstate, hentry, hcomplete, hrule, hn, -⟩ :=
      hp.reduce_spec haction
    use n, state, entry
    refine ⟨?_, hcolumn, hstate, hentry, hcomplete, hrule, hn⟩
    rintro rfl
    apply hname
    apply (column?_eq_eof_iff hp.grammar).mp hcolumn
  · intro ts hts cap e he
    apply hp.status_ne_accepted hts he

/-- The input is not accepted as long as only the token of the sentence is offered. -/
theorem acts_as_end_iff_lone :
  ∃ p, Parser.build ⟨.fail, false, false⟩ lone = .ok p ∧
    p.column? (some " $EOFToken") = some p.grammar.eof ∧
    ∀ e : Engine StateId, e.Reachable p.definition 0 {named "x"} → e.status ≠ .accepted
  := by
  have hbuild : ((Parser.build ⟨.fail, false, false⟩ lone).toOption).isSome := by
    decide +kernel
  obtain ⟨p, hp⟩ := Option.isSome_iff_exists.mp hbuild
  have hp := Grammar.eq_ok_of_toOption_eq_some hp
  obtain ⟨hcolumn, -, -, haccepted⟩ := acts_as_end_iff built_lone hp
  use p, hp, (hcolumn " $EOFToken").mpr (by decide +kernel)
  apply haccepted
  rintro t rfl
  decide +kernel

/-- The input is accepted before its end when a token is offered that passes for it. -/
theorem accepted_of_blank :
  ∃ p e, Parser.build ⟨.fail, false, false⟩ lone = .ok p ∧
    e = ((Engine.new p.definition 0).offerAll p.definition [named "x", named " $EOFToken"]).engine ∧
    e.status = .accepted
  := by
  have hrun : ((Parser.build ⟨.fail, false, false⟩ lone).toOption.map fun p =>
      ((Engine.new p.definition 0).offerAll p.definition
        [named "x", named " $EOFToken"]).engine.status) = some .accepted := by
    decide +kernel
  obtain ⟨p, hp, hstatus⟩ := Option.map_eq_some_iff.mp hrun
  use p, ((Engine.new p.definition 0).offerAll p.definition
    [named "x", named " $EOFToken"]).engine, Grammar.eq_ok_of_toOption_eq_some hp, rfl, hstatus

end CanonicalLR.Parser
