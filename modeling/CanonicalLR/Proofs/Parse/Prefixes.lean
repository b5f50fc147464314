import CanonicalLR.Proofs.Parse.Rejections
import CanonicalLR.Proofs.Table.Expectations

/-!
# What has been read can be completed

As long as a parser without conflicts does not complain, the tokens that it has read are the beginning of
a sentence, if all terms of the grammar derive something.  For a token for which there is an action in the
state on top may come next in a sentence (`Path.exists_sentence`), and no token of a sentence is complained
about (`IsMade.complaints_of_sentence`).  So the tokens that are expected are exactly those that may come
next (`Parser.expects_exactly`).
-/

namespace CanonicalLR

/-! ### Sentences -/

namespace AugmentedGrammar

/-- The names are those of a sequence of tokens that is derived from the term that the start rule begins
with. -/
def Sentence (g : AugmentedGrammar) (names : List String) : Prop :=
  ∃ start rest, g.startRule.items = .term start :: rest ∧ g.grammar.Generates start names

/-- The name is that of a token of the grammar. -/
def HasToken (g : AugmentedGrammar) (name : String) : Prop :=
  ∃ n, g.grammar.contains (.token n) = true ∧ g.grammar.tokenName n = name

variable {g : AugmentedGrammar} {names : List String} {name : String}

/-- There are no blanks at the ends of the name of a token. -/
theorem HasToken.trim_eq (hg : g.WellFormed) (h : g.HasToken name) :
  Text.trim name = name
  := by
  obtain ⟨n, hn, rfl⟩ := h
  apply Text.trim_of_isName (hg.grammar.isName_nameOf hn)

/-- A sentence consists of tokens of the grammar. -/
theorem Sentence.hasToken (hg : g.WellFormed) (h : g.Sentence names) (hname : name ∈ names) :
  g.HasToken name
  := by
  obtain ⟨start, rest, hstart, w, hw, rfl⟩ := h
  obtain ⟨n, hn, rfl⟩ := List.mem_map.mp hname
  use n
  have hordinary := hg.ordinary_of_derives hw (by simpa using hg.ordinary_start hstart)
  use (hordinary n hn).1

/-- What is derived from the start rule with the end of the input behind it is a sentence, and then twice
the end of the input. -/
theorem exists_sentence_of_derives (hg : g.WellFormed) {w : List TokenId}
    (h : Derives g.grammar.rules (g.startRule.items ++ [.token g.eof]) w) :
  ∃ z, g.Sentence (z.map g.grammar.tokenName) ∧ (∀ n ∈ z, g.Ordinary (.token n)) ∧
    w = z ++ [g.eof, g.eof]
  := by
  obtain ⟨start, hitems⟩ := hg.items_startRule
  rw [hitems] at h
  change Derives g.grammar.rules ([.term start] ++ [.token g.eof, .token g.eof]) w at h
  obtain ⟨z, v, rfl, hz, hv⟩ := derives_append.mp h
  use z, ⟨start, [.token g.eof], hitems, z, hz, rfl⟩
  use hg.ordinary_of_derives hz (by simpa using hg.ordinary_start hitems)
  rcases hv with _ | _ | hv
  rcases hv with _ | _ | hv
  cases hv
  rfl

end AugmentedGrammar

/-- A token that comes behind `w` in the sequence `z` with `a` and `a` behind it is one of `z`, or it is
`a`, and then nothing of `z` is left. -/
theorem eq_or_exists_of_append_eq {a n : TokenId} {w v z : List TokenId}
    (h : w ++ n :: v = z ++ [a, a]) (hw : a ∉ w) :
  n = a ∧ w = z ∨ ∃ rest, z = w ++ n :: rest
  := by
  rcases List.append_eq_append_iff.mp h with ⟨more, rfl, hmore⟩ | ⟨more, rfl, hmore⟩
  · cases more with
    | nil =>
      left
      use (List.cons.inj hmore).1, (List.append_nil w).symm
    | cons m more =>
      right
      use more
      rw [(List.cons.inj hmore).1]
  · cases more with
    | nil =>
      left
      use (List.cons.inj hmore).1.symm, List.append_nil z
    | cons m more =>
      obtain ⟨rfl, -⟩ := List.cons.inj hmore
      apply absurd (List.mem_append_right z List.mem_cons_self) hw

namespace Parser

open Engine

variable {p : Parser} {policy : Policy} {e : Engine StateId} {states : List StateId}
  {symbols : List Symbol} {nodes : List Node} {s : StateId} {action : Action} {n : TokenId}
  {y : Symbol} {x : Node} {cap : Nat} {tokens others : List Token} {lookahead : Option Token}
  {t : Token} {name : String}

/-! ### What is on the stacks -/

namespace Path

/-- The symbols on a path are ordinary. -/
theorem ordinary (hp : p.IsMade policy) (h : p.Path states symbols nodes) :
  ∀ x ∈ symbols, p.grammar.Ordinary x
  := by
  induction h with
  | start => rintro x ⟨⟩
  | @step _ target _ _ _ _ y _ _ hs ht _ ih =>
    rw [List.forall_mem_cons]
    have hmem := hp.mem_states hs
    obtain ⟨hnext, hne⟩ := (Automaton.exists_transition_iff hp.grammar hmem).mp ⟨target, ht⟩
    obtain ⟨d, hd, hx⟩ := Automaton.mem_nextSymbols.mp hnext
    obtain ⟨lookahead, hl⟩ := ItemSet.mem_cores_iff.mp hd
    have hr := (Automaton.proper_items hp.grammar hmem).rule_mem_of_lookahead? hl
    have hy := DottedRule.mem_items_of_mem_rest (List.mem_of_mem_head? hx)
    refine ⟨⟨hp.grammar.grammar.items_mem _ hr _ hy, hne, ?_⟩, ih⟩
    rintro rfl
    apply hp.grammar.startTerm_not_mem _ hr hy

/-- A node is for a symbol that derives its leaves, blanks at the ends of names apart. -/
theorem exists_derives_of_fits (hg : p.grammar.WellFormed) (h : p.Fits y x)
    (htrim : ∀ t ∈ x.leaves, Text.trim t.name = t.name) :
  ∃ w, Derives p.grammar.grammar.rules [y] w ∧
    w.map p.grammar.grammar.tokenName = x.leaves.map Token.name
  := by
  obtain ⟨kind, id⟩ := y
  cases kind with
  | term =>
    obtain ⟨w, hw, hnames⟩ := Grammar.Forest.derives h
    use w, hw
    rw [hnames, Node.leavesOf, Node.leavesOf, List.append_nil]
  | token =>
    obtain ⟨t, rfl, hcolumn⟩ := h
    obtain ⟨-, -, hname⟩ := (column?_eq_some_iff hg).mp hcolumn
    use [id], .token .nil
    rw [List.map_singleton, Node.leaves, List.map_singleton, hname, htrim t List.mem_cons_self]
  | prompt => cases h

/-- The symbols on a path derive the leaves of the nodes. -/
theorem exists_derives (hg : p.grammar.WellFormed) (h : p.Path states symbols nodes)
    (htrim : ∀ t ∈ Node.leavesOf nodes.reverse, Text.trim t.name = t.name) :
  ∃ w, Derives p.grammar.grammar.rules symbols.reverse w ∧
    w.map p.grammar.grammar.tokenName = (Node.leavesOf nodes.reverse).map Token.name
  := by
  induction h with
  | start =>
    use [], .nil
    rfl
  | @step _ _ _ symbols nodes _ y x _ _ _ hfits ih =>
    have hleaves : Node.leavesOf (x :: nodes).reverse = Node.leavesOf nodes.reverse ++ x.leaves := by
      rw [List.reverse_cons, Node.leavesOf_append, Node.leavesOf, Node.leavesOf, List.append_nil]
    rw [hleaves, List.forall_mem_append] at htrim
    obtain ⟨v, hv, hvnames⟩ := ih htrim.1
    obtain ⟨w, hw, hwnames⟩ := exists_derives_of_fits hg hfits htrim.2
    use v ++ w
    rw [hleaves, List.reverse_cons, List.map_append, List.map_append, hvnames, hwnames]
    use derives_append.mpr ⟨v, w, rfl, hv, hw⟩

/-- If all terms derive something, then a token for which there is an action in the state on top may come
next, or it is the end of the input, and then what has been read is a sentence. -/
theorem exists_sentence (hp : p.IsMade .fail)
    (hgen : ∀ y, p.grammar.grammar.contains (.term y) = true →
      ∃ names, p.grammar.grammar.Generates y names)
    (h : p.Path states symbols nodes)
    (htrim : ∀ t ∈ Node.leavesOf nodes.reverse, Text.trim t.name = t.name)
    (hs : states.head? = some s) (haction : p.table.action? s (.token n) = some action) :
  n = p.grammar.eof ∧ p.grammar.Sentence ((Node.leavesOf nodes.reverse).map Token.name) ∨
    p.grammar.Ordinary (.token n) ∧ ∃ rest, p.grammar.Sentence
      ((Node.leavesOf nodes.reverse).map Token.name ++ p.grammar.grammar.tokenName n :: rest)
  := by
  obtain ⟨state, hstate, hcell⟩ := hp.isFilledOf.action?_eq_some_iff.mp haction
  obtain ⟨below, rfl⟩ := List.head?_eq_some_iff.mp hs
  obtain ⟨w, hw, hnames⟩ := h.exists_derives hp.grammar htrim
  have hderived : ∀ y, p.grammar.grammar.contains (.term y) = true →
      ∃ v, derived p.grammar.grammar.rules y v := by
    intro y hy
    obtain ⟨-, v, hv, -⟩ := hgen y hy
    use v, hv
  obtain ⟨v, hv⟩ := (h.walk hp).exists_derives hp.grammar hderived hstate hcell hw
  obtain ⟨z, hz, hordinary, heq⟩ := AugmentedGrammar.exists_sentence_of_derives hp.grammar hv
  have heof : p.grammar.eof ∉ w := by
    intro hmem
    have hsymbols : ∀ x ∈ symbols.reverse, p.grammar.Ordinary x := by simpa using h.ordinary hp
    apply (hp.grammar.ordinary_of_derives hw hsymbols _ hmem).2.1 rfl
  rw [← hnames]
  rcases eq_or_exists_of_append_eq heq heof with ⟨rfl, rfl⟩ | ⟨rest, rfl⟩
  · left
    use rfl
  · right
    use hordinary n (List.mem_append_right w List.mem_cons_self), rest.map p.grammar.grammar.tokenName
    simpa using hz

end Path

/-! ### What comes of sentences -/

/-- A sentence is parsed without complaint. -/
theorem IsMade.parse_of_sentence (hp : p.IsMade .fail)
    (h : p.grammar.Sentence (tokens.map Token.name)) (cap : Nat) :
  ∃ x, p.parse tokens cap = .ok ⟨some x, []⟩
  := by
  obtain ⟨start, rest, hstart, w, hw, hnames⟩ := h
  obtain ⟨nodes, hforest, rfl⟩ := hw.forest hnames.symm
  obtain ⟨x, rfl⟩ := exists_of_forest_singleton hforest
  have hleaves : Node.leavesOf [x] = x.leaves := List.append_nil _
  use x
  rw [hleaves]
  apply hp.parse_leaves ⟨start, rest, hstart, hforest⟩ cap

/-- The engine once the tokens have been offered to it. -/
def reader (p : Parser) (cap : Nat) (tokens : List Token) : Engine StateId :=
  ((Engine.new p.definition cap).offerAll p.definition tokens).engine

theorem reachable_reader (htrim : ∀ t ∈ tokens, Text.trim t.name = t.name) :
  (p.reader cap tokens).Reachable p.definition cap {t | Text.trim t.name = t.name}
  := Reachable.new.offerAll htrim

/-- There are no faults if no token has a name with blanks at its ends. -/
theorem IsMade.not_faultOfTurn_trimmed (hp : p.IsMade policy) {fault : Fault StateId} :
  ¬ FaultOfTurn p.definition cap {t | Text.trim t.name = t.name} fault
  := hp.not_faultOfTurn fun _ => Or.inl

section Reader

variable (hp : p.IsMade .fail) (htrim : ∀ t ∈ tokens, Text.trim t.name = t.name)

include hp htrim

/-- There is no fault while the tokens are offered. -/
theorem IsMade.outcome_offerAll :
  ((Engine.new p.definition cap).offerAll p.definition tokens).outcome = .ok ()
  := by
  cases houtcome : ((Engine.new p.definition cap).offerAll p.definition tokens).outcome with
  | ok => rfl
  | error fault =>
    exfalso
    apply hp.not_faultOfTurn_trimmed
    apply Reachable.new.faultOfTurn_offerAll hp.drive_ne_endless htrim houtcome

/-- To parse tokens and then others is to go on where the first ones have been read. -/
theorem IsMade.parse_append :
  p.parse (tokens ++ others) cap = (p.reader cap tokens).readAll p.definition others
  := by
  rw [Parser.parse, outcome_parse, readAll_append (hp.outcome_offerAll htrim), reader]

theorem IsMade.tracks_reader :
  p.Tracks (p.reader cap tokens) tokens
  := (Tracks.new p cap).offerAll hp (hp.outcome_offerAll htrim)

variable (hnone : (p.reader cap tokens).complaints = [])

include hnone

/-- If what has been read can be completed to a sentence, then there is no complaint about the next token
of the sentence, or about the end of the input. -/
theorem IsMade.complaints_of_sentence
    (h : p.grammar.Sentence ((tokens ++ others).map Token.name)) :
  ((p.reader cap tokens).drive p.definition others.head?).engine.complaints = []
  := by
  have hrunning := (hp.tracks_reader htrim).running hnone
  obtain ⟨x, hparse⟩ := hp.parse_of_sentence h cap
  rw [hp.parse_append htrim] at hparse
  cases others with
  | nil =>
    rw [readAll_nil, outcome_finish hrunning] at hparse
    obtain ⟨_, -, hresult⟩ := Grammar.exists_of_map_eq_ok hparse
    apply congrArg ParseResult.complaints hresult
  | cons t others =>
    rw [readAll_cons hrunning] at hparse
    split at hparse
    · cases hparse
    · by_contra hne
      apply complaints_ne_nil_of_readAll hne hparse rfl

/-- For the next token of such a sentence, or for the end of the input, there is an action in the state on
top. -/
theorem IsMade.exists_action_of_sentence (hs : (p.reader cap tokens).states.head? = some s)
    (hend : ∀ t ∈ others.head?, ¬ PassesForEnd t.name)
    (h : p.grammar.Sentence ((tokens ++ others).map Token.name)) :
  ∃ n action, p.column? (others.head?.map (·.name)) = some n ∧
    p.table.action? s (.token n) = some action
  := by
  obtain ⟨symbols, hpath⟩ := (hp.tracks_reader htrim).path
  have heq := hp.complaints_of_sentence htrim hnone h
  rw [← hnone, hp.complaints_drive_iff hpath hs hend] at heq
  obtain ⟨decision, hdecision⟩ := heq
  obtain ⟨n, action, hn, haction, -⟩ := exists_action hdecision
  use n, action

variable (hgen : ∀ y, p.grammar.grammar.contains (.term y) = true →
  ∃ names, p.grammar.grammar.Generates y names)

include hgen

/-- A token for which there is an action may come next, or it is the end of the input, and then a sentence
has been read. -/
theorem IsMade.sentence_of_action (hs : (p.reader cap tokens).states.head? = some s)
    (haction : p.table.action? s (.token n) = some action) :
  n = p.grammar.eof ∧ p.grammar.Sentence (tokens.map Token.name) ∨
    p.grammar.Ordinary (.token n) ∧ ∃ rest,
      p.grammar.Sentence (tokens.map Token.name ++ p.grammar.grammar.tokenName n :: rest)
  := by
  have htracks : p.Tracks (p.reader cap tokens) tokens := hp.tracks_reader htrim
  obtain ⟨symbols, hpath⟩ := htracks.path
  have hleaves := htracks.leaves hnone
  have hsentence := hpath.exists_sentence hp hgen (by rwa [hleaves]) hs haction
  rwa [hleaves] at hsentence

/-- There is no complaint about a token exactly if it may come next. -/
theorem IsMade.complaints_drive_some_iff (ht : Text.trim t.name = t.name) :
  ((p.reader cap tokens).drive p.definition (some t)).engine.complaints = [] ↔
    ∃ rest, p.grammar.Sentence (tokens.map Token.name ++ t.name :: rest)
  := by
  have htracks : p.Tracks (p.reader cap tokens) tokens := hp.tracks_reader htrim
  obtain ⟨symbols, hpath⟩ := htracks.path
  obtain ⟨s, hs⟩ := hpath.exists_head
  constructor
  · have hend := not_passesForEnd ht
    intro heq
    rw [← hnone, hp.complaints_drive_iff hpath hs (by simpa using hend)] at heq
    obtain ⟨decision, hdecision⟩ := heq
    obtain ⟨n, action, hn, haction, -⟩ := exists_action hdecision
    rcases hp.sentence_of_action htrim hnone hgen hs haction with ⟨rfl, -⟩ | ⟨-, hsentence⟩
    · apply absurd ((column?_eq_eof_iff hp.grammar).mp hn) hend
    · rw [((column?_eq_some_iff hp.grammar).mp hn).2.2, ht] at hsentence
      apply hsentence
  · rintro ⟨rest, h⟩
    have hothers : p.grammar.Sentence ((tokens ++ t :: rest.map named).map Token.name) := by
      simpa [named, Function.comp_def] using h
    apply hp.complaints_of_sentence htrim hnone hothers

/-- There is no complaint about the end of the input exactly if a sentence has been read. -/
theorem IsMade.complaints_drive_none_iff :
  ((p.reader cap tokens).drive p.definition none).engine.complaints = [] ↔
    p.grammar.Sentence (tokens.map Token.name)
  := by
  have htracks : p.Tracks (p.reader cap tokens) tokens := hp.tracks_reader htrim
  obtain ⟨symbols, hpath⟩ := htracks.path
  obtain ⟨s, hs⟩ := hpath.exists_head
  constructor
  · intro heq
    rw [← hnone, hp.complaints_drive_iff hpath hs (by rintro _ ⟨⟩)] at heq
    obtain ⟨decision, hdecision⟩ := heq
    obtain ⟨_, action, ⟨⟩, haction, -⟩ := exists_action hdecision
    rcases hp.sentence_of_action htrim hnone hgen hs haction with ⟨-, hsentence⟩ | ⟨hordinary, -⟩
    · apply hsentence
    · apply absurd rfl hordinary.2.1
  · intro h
    have hothers : p.grammar.Sentence ((tokens ++ []).map Token.name) := by simpa using h
    apply hp.complaints_of_sentence htrim hnone hothers

/-- The names of the tokens that are expected are those of the tokens that may come next, and that of the
end of the input if a sentence has been read. -/
theorem IsMade.mem_expected_iff (hs : (p.reader cap tokens).states.head? = some s) :
  name ∈ p.definition.expected s ↔
    (∃ rest, p.grammar.Sentence (tokens.map Token.name ++ name :: rest)) ∨
      name = eofTokenName ∧ p.grammar.Sentence (tokens.map Token.name)
  := by
  change name ∈ (p.table.row s).expectedTokens.map p.grammar.grammar.tokenName ↔ _
  rw [List.mem_map]
  constructor
  · rintro ⟨n, hn, rfl⟩
    obtain ⟨action, haction, -⟩ := hp.isFilledOf.mem_expectedTokens_iff.mp hn
    rcases hp.sentence_of_action htrim hnone hgen hs haction with ⟨rfl, h⟩ | ⟨-, h⟩
    · right
      use hp.grammar.tokenName_eof
    · left
      apply h
  · have hexpected {n : TokenId} {action : Action}
        (haction : p.table.action? s (.token n) = some action) :
        n ∈ (p.table.row s).expectedTokens := by
      obtain ⟨state, -, hcell⟩ := hp.isFilledOf.action?_eq_some_iff.mp haction
      apply hp.isFilledOf.mem_expectedTokens_iff.mpr
      use action, haction, State.isError_of_mem_candidates hcell
    rintro (⟨rest, h⟩ | ⟨rfl, h⟩)
    · have htoken : p.grammar.HasToken name := h.hasToken hp.grammar (by simp)
      have hname := htoken.trim_eq hp.grammar
      have hothers : p.grammar.Sentence ((tokens ++ named name :: rest.map named).map Token.name) := by
        simpa [named, Function.comp_def] using h
      obtain ⟨n, action, hn, haction⟩ := hp.exists_action_of_sentence htrim hnone hs
        (by simpa [named] using not_passesForEnd hname) hothers
      use n, hexpected haction
      rw [((column?_eq_some_iff hp.grammar).mp hn).2.2, named, hname]
    · have hothers : p.grammar.Sentence ((tokens ++ []).map Token.name) := by simpa using h
      obtain ⟨_, action, ⟨⟩, haction⟩ := hp.exists_action_of_sentence htrim hnone hs
        (by rintro _ ⟨⟩) hothers
      use p.grammar.eof, hexpected haction, hp.grammar.tokenName_eof

/-- No token is listed twice among those that are expected. -/
theorem IsMade.nodup_expected (hs : (p.reader cap tokens).states.head? = some s) :
  (p.definition.expected s).Nodup
  := by
  have hmember : ∀ n ∈ (p.table.row s).expectedTokens,
      p.grammar.grammar.contains (.token n) = true := by
    intro n hn
    obtain ⟨action, haction, -⟩ := hp.isFilledOf.mem_expectedTokens_iff.mp hn
    rcases hp.sentence_of_action htrim hnone hgen hs haction with ⟨rfl, -⟩ | ⟨hordinary, -⟩
    · apply hp.grammar.contains_eof
    · apply hordinary.1
  apply List.Nodup.map_on _ (Row.nodup_expectedTokens hp.isFilledOf.nodup_row)
  intro n hn m hm hname
  have heq := hp.grammar.grammar.eq_of_label_eq (hmember n hn) (hmember m hm)
    (congrArg (Label.mk .token) hname)
  apply (Symbol.mk.inj heq).2

end Reader

/-- Let a parser be built without conflicts from a grammar in which every term derives something, and let
tokens be offered to it without complaint.  Then it complains about a further token exactly if no sentence
goes on with it, and about the end of the input exactly if what has been read is no sentence.  In the state
on top these tokens are expected and no others, together with the end of the input if it is not
complained about. -/
theorem expects_exactly {g : Grammar} {settings : Settings} (hg : g.Built)
    (hp : Parser.build settings g = .ok p) (hpolicy : settings.policy = .fail)
    (hgen : ∀ y, p.grammar.grammar.contains (.term y) = true →
      ∃ names, p.grammar.grammar.Generates y names)
    (htokens : ∀ t ∈ tokens, p.grammar.HasToken t.name)
    (hnone : (p.reader cap tokens).complaints = []) :
  (∀ t : Token, p.grammar.HasToken t.name →
    ((p.reader cap tokens).offer p.definition t).outcome = .ok () ∧
    (((p.reader cap tokens).offer p.definition t).engine.complaints = [] ↔
      ∃ rest, p.grammar.Sentence (tokens.map Token.name ++ t.name :: rest))) ∧
  (∃ result, ((p.reader cap tokens).finish p.definition).outcome = .ok result ∧
    (result.complaints = [] ↔ p.grammar.Sentence (tokens.map Token.name))) ∧
  ∃ s, (p.reader cap tokens).states.head? = some s ∧ (p.definition.expected s).Nodup ∧
    ∀ name, name ∈ p.definition.expected s ↔
      (∃ rest, p.grammar.Sentence (tokens.map Token.name ++ name :: rest)) ∨
        name = eofTokenName ∧ p.grammar.Sentence (tokens.map Token.name)
  := by
  have hp : p.IsMade .fail := hpolicy ▸ isMade_build hg.wellFormed hp
  have htrim : ∀ t ∈ tokens, Text.trim t.name = t.name :=
    fun t ht => (htokens t ht).trim_eq hp.grammar
  have htracks : p.Tracks (p.reader cap tokens) tokens := hp.tracks_reader htrim
  have hrunning := htracks.running hnone
  obtain ⟨symbols, hpath⟩ := htracks.path
  obtain ⟨s, hs⟩ := hpath.exists_head
  have hreachable : (p.reader cap tokens).Reachable p.definition cap {t | Text.trim t.name = t.name} :=
    reachable_reader htrim
  constructor
  · intro t htoken
    have ht := htoken.trim_eq hp.grammar
    constructor
    · cases houtcome : ((p.reader cap tokens).offer p.definition t).outcome with
      | ok => rfl
      | error fault =>
        exfalso
        apply hp.not_faultOfTurn_trimmed
        apply hreachable.faultOfTurn_offer hp.drive_ne_endless ht houtcome
    · rw [offer, hrunning]
      apply hp.complaints_drive_some_iff htrim hnone hgen ht
  · constructor
    · cases houtcome : ((p.reader cap tokens).finish p.definition).outcome with
      | error fault =>
        exfalso
        apply hp.not_faultOfTurn_trimmed
        apply hreachable.faultOfTurn_finish hp.drive_ne_endless houtcome
      | ok result =>
        use result, rfl
        rw [outcome_finish hrunning] at houtcome
        obtain ⟨_, -, rfl⟩ := Grammar.exists_of_map_eq_ok houtcome
        apply hp.complaints_drive_none_iff htrim hnone hgen
    · use s, hs, hp.nodup_expected htrim hnone hgen hs
      intro name
      apply hp.mem_expected_iff htrim hnone hgen hs

/-- All terms derive something if each of them has a rule with no other terms than such that have a rule
without terms. -/
theorem generates_of_rules {g : Grammar}
    (h : ∀ y ∈ g.terms.ids, ∃ r ∈ g.rules, r.owner = y ∧ ∀ x ∈ r.items, x.kind = .term →
      ∃ r' ∈ g.rules, r'.owner = x.id ∧ ∀ x' ∈ r'.items, x'.kind ≠ .term) {y : TermId}
    (hy : g.contains (.term y) = true) :
  ∃ names, g.Generates y names
  := by
  obtain ⟨r, hr, rfl, hitems⟩ := h y (Grammar.contains_iff.mp hy)
  have hderives : ∃ w, Derives g.rules r.items w := by
    apply exists_derives
    intro t ht
    obtain ⟨r', hr', rfl, hterms⟩ := hitems (.term t) ht rfl
    have hderives' : ∃ v, Derives g.rules r'.items v := by
      apply exists_derives
      intro t' ht'
      apply absurd rfl (hterms (.term t') ht')
    obtain ⟨v, hv⟩ := hderives'
    use v, derived_iff.mpr ⟨r', hr', rfl, hv⟩
  obtain ⟨w, hw⟩ := hderives
  use w.map g.tokenName, w, derived_iff.mpr ⟨r, hr, rfl, hw⟩

/-- An opening bracket is no sentence, but one begins with it, and it may go on with a closing one. -/
theorem expects_exactly_brackets :
  ∃ p, Parser.build ⟨.fail, false, false⟩ brackets = .ok p ∧
    ¬ p.grammar.Sentence ["("] ∧ ∃ rest, p.grammar.Sentence ("(" :: ")" :: rest)
  := by
  have hrun : ((Parser.build ⟨.fail, false, false⟩ brackets).toOption.map fun p => decide (
      (∀ y ∈ p.grammar.grammar.terms.ids, ∃ r ∈ p.grammar.grammar.rules, r.owner = y ∧
        ∀ x ∈ r.items, x.kind = .term → ∃ r' ∈ p.grammar.grammar.rules, r'.owner = x.id ∧
          ∀ x' ∈ r'.items, x'.kind ≠ .term) ∧
      (p.grammar.grammar.contains (.token 0) ∧ p.grammar.grammar.tokenName 0 = "(") ∧
      (p.grammar.grammar.contains (.token 1) ∧ p.grammar.grammar.tokenName 1 = ")") ∧
      (p.reader 0 [named "("]).complaints = [] ∧
      ((p.reader 0 [named "("]).offer p.definition (named ")")).engine.complaints = [] ∧
      ((p.reader 0 [named "("]).finish p.definition).outcome.toOption.map (·.complaints) ≠
        some [])) = some true := by
    decide +kernel
  obtain ⟨p, hp, hrun⟩ := Option.map_eq_some_iff.mp hrun
  have hp := Grammar.eq_ok_of_toOption_eq_some hp
  obtain ⟨hrules, hopening, hclosing, hnone, hoffer, hfinish⟩ := of_decide_eq_true hrun
  obtain ⟨hoffers, ⟨result, hresult, hend⟩, -⟩ := expects_exactly built_brackets hp rfl
    (fun y => generates_of_rules hrules) (List.forall_mem_singleton.mpr ⟨0, hopening⟩) hnone
  use p, hp
  constructor
  · intro hsentence
    apply hfinish
    rw [hresult]
    apply congrArg some (hend.mpr hsentence)
  · apply (hoffers (named ")") ⟨1, hclosing⟩).2.mp hoffer

end Parser

end CanonicalLR
