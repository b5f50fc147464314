import CanonicalLR.Proofs.Language.Tree
import CanonicalLR.Proofs.Parse.Answers
import CanonicalLR.Proofs.Parse.Turns

/-!
# The stacks are a path

The states on the stack of an engine are those on a path through the automaton, from the first state
to that on top, and the nodes are those of the symbols along the path (`Parser.Path`).  Whatever the
engine does in a turn, also if there is a fault, it keeps a path (`Path.turned`).

The path spells what is before the dot in each core of the state on top (`Path.spells`).  So a
reduction takes the nodes of a right side from the stack (`Path.spells_rule`), and the nodes below it
are a forest over that right side (`Path.forest_of_arrangement`).  Where the right side begins, there
is a transition on the term of the rule (`Path.exists_goto_of_reduce`), and where the end of the input
is accepted, one tree is on the stack (`Path.symbols_of_accept`).
-/

namespace CanonicalLR

namespace Parser

variable {p : Parser} {policy : Policy} {states : List StateId} {symbols : List Symbol}
  {nodes : List Node} {s : StateId} {state : State} {d : DottedRule} {k : Nat} {r : Rule}
  {name : Option String}

/-! ### Paths -/

/-- The node is one for the symbol: a token that the parser takes for it, or a tree over it. -/
def Fits (p : Parser) : Symbol → Node → Prop
  | .token n, x => ∃ t, x = .token t ∧ p.column? (some t.name) = some n
  | .term y, x => p.grammar.grammar.Forest [.term y] [x]
  | .prompt _, _ => False

/-- The states are those on a path through the automaton that begins in the first state, the last of
them in front, and the nodes are those of the symbols of its transitions. -/
inductive Path (p : Parser) : List StateId → List Symbol → List Node → Prop where
  | start : Path p [0] [] []
  | step {s target : StateId} {states : List StateId} {symbols : List Symbol} {nodes : List Node}
      {state : State} {y : Symbol} {x : Node} :
      Path p (s :: states) symbols nodes → p.automaton.states[s]? = some state →
      ⟨y, target⟩ ∈ state.transitions → p.Fits y x →
      Path p (target :: s :: states) (y :: symbols) (x :: nodes)

namespace Path

theorem length_states (h : p.Path states symbols nodes) :
  states.length = symbols.length + 1
  := by
  induction h with
  | start => rfl
  | step _ _ _ _ ih => rw [List.length_cons, ih, List.length_cons]

/-- There is a node for each symbol. -/
theorem fits (h : p.Path states symbols nodes) :
  List.Forall₂ p.Fits symbols nodes
  := by
  induction h with
  | start => apply List.Forall₂.nil
  | step _ _ _ hx ih => apply List.Forall₂.cons hx ih

/-- What is left of a path when its last transitions are taken away. -/
theorem drop (h : p.Path states symbols nodes) (hk : k ≤ symbols.length) :
  p.Path (states.drop k) (symbols.drop k) (nodes.drop k)
  := by
  induction k generalizing states symbols nodes with
  | zero => apply h
  | succ k ih =>
    cases h with
    | start => cases hk
    | step hpath _ _ _ => apply ih hpath (Nat.le_of_succ_le_succ hk)

/-- The last symbols of a path are those before the dot in any core of its last state, and where
they begin there is a state with that rule and the dot in front. -/
theorem spells (hp : p.IsMade policy) (h : p.Path states symbols nodes)
    (hs : states.head? = some s) (hstate : p.automaton.states[s]? = some state)
    (hd : d ∈ state.items.cores) :
  d.dot ≤ symbols.length ∧ (symbols.take d.dot).reverse = d.rule.basicItems.take d.dot ∧
    ∃ origin first, (states.drop d.dot).head? = some origin ∧
      p.automaton.states[origin]? = some first ∧ .initial d.rule ∈ first.items.cores
  := by
  obtain ⟨r, dot⟩ := d
  induction dot generalizing states symbols nodes s state with
  | zero => use Nat.zero_le _, rfl, s, state, hs, hstate, hd
  | succ dot ih =>
    cases h with
    | start =>
      cases hs
      rw [hp.automaton_eq] at hstate
      cases Automaton.dot_eq_zero_of_first hp.grammar hstate hd
    | step hpath hprior ht _ =>
      cases hs
      rw [hp.automaton_eq] at hstate
      obtain ⟨⟨r', dot'⟩, he, hnext, heq⟩ :=
        Automaton.exists_core_of_target hp.grammar (hp.mem_states hprior) ht hstate hd
          (Nat.succ_ne_zero dot)
      cases heq
      obtain ⟨hle, htake, hfirst⟩ := ih hpath rfl hprior he
      use Nat.succ_le_succ hle
      constructor
      · rw [DottedRule.next?, DottedRule.rest, List.head?_drop] at hnext
        rw [List.take_succ_cons, List.reverse_cons, htake, List.take_add_one, hnext]
        rfl
      · apply hfirst

/-- If there is a reduction by a rule, then the last symbols of the path are its right side, and where
they begin there is a state with that rule and the dot in front. -/
theorem spells_rule (hp : p.IsMade policy) (h : p.Path states symbols nodes)
    (hs : states.head? = some s) (haction : p.definition.action s name = some (.reduce r)) :
  r ∈ p.grammar.grammar.rules ∧ r.arity ≤ symbols.length ∧
    (symbols.take r.arity).reverse = r.basicItems ∧
    ∃ origin first, (states.drop r.arity).head? = some origin ∧
      p.automaton.states[origin]? = some first ∧ .initial r ∈ first.items.cores
  := by
  obtain ⟨n, state, entry, -, hstate, hentry, hcomplete, rfl, -⟩ := hp.reduce_spec haction
  have hproper := Automaton.proper_items hp.grammar (hp.mem_states hstate)
  have hdot : entry.core.dot = entry.core.rule.arity := by
    apply Nat.le_antisymm (hproper.dot_le entry hentry)
    rw [DottedRule.isComplete, List.isEmpty_iff, DottedRule.rest, List.drop_eq_nil_iff] at hcomplete
    apply hcomplete
  obtain ⟨hle, htake, hfirst⟩ := h.spells hp hs hstate (List.mem_map_of_mem hentry)
  rw [hdot] at hle htake hfirst
  use hproper.rule_mem entry hentry, hle
  constructor
  · rw [htake, Rule.arity, List.take_length]
  · apply hfirst

/-- If there is a reduction by a rule, then the nodes on top of the stack are those of its right
side. -/
theorem fits_rule (hp : p.IsMade policy) (h : p.Path states symbols nodes)
    (hs : states.head? = some s) (haction : p.definition.action s name = some (.reduce r)) :
  List.Forall₂ p.Fits r.basicItems (nodes.take r.arity).reverse
  := by
  obtain ⟨-, -, htake, -⟩ := h.spells_rule hp hs haction
  rw [← htake, List.forall₂_reverse_iff]
  apply List.forall₂_take _ h.fits

/-! ### States on a path -/

/-- The end of the input is on no path. -/
theorem eof_not_mem (hp : p.IsMade policy) (h : p.Path states symbols nodes) :
  .token p.grammar.eof ∉ symbols
  := by
  induction h with
  | start => rintro ⟨⟩
  | step _ hs ht _ ih =>
    rw [List.mem_cons, not_or]
    use (Automaton.symbol_ne_eof hp.grammar (hp.mem_states hs) ht).symm, ih

/-- A rule with the dot in front is predicted, the start rule apart. -/
theorem predicted (hp : p.IsMade policy) (h : p.Path states symbols nodes)
    (hs : states.head? = some s) (hstate : p.automaton.states[s]? = some state)
    (hr : .initial r ∈ state.items.cores) (hne : r ≠ p.grammar.startRule) :
  state.items.Predicted r
  := by
  rw [hp.automaton_eq] at hstate
  cases h with
  | start =>
    cases hs
    apply (Automaton.predicted_of_first hp.grammar hstate hr).resolve_left hne
  | step _ hprior ht _ =>
    cases hs
    apply Automaton.predicted_of_target hp.grammar (hp.mem_states hprior) ht hstate hr

/-- Only in the first state, the start rule has the dot in front, and no transition leads there. -/
theorem eq_nil_of_startRule (hp : p.IsMade policy) (h : p.Path states symbols nodes)
    (hs : states.head? = some s) (hstate : p.automaton.states[s]? = some state)
    (hr : .initial p.grammar.startRule ∈ state.items.cores) :
  symbols = []
  := by
  cases h with
  | start => rfl
  | step _ hprior ht _ =>
    cases hs
    -- A state that a transition leads to predicts the rules that have the dot in front there.
    have hmem := hp.mem_states hstate
    rw [hp.automaton_eq] at hstate
    apply absurd _ (Automaton.not_predicted_startRule hp.grammar hmem)
    apply Automaton.predicted_of_target hp.grammar (hp.mem_states hprior) ht hstate hr

/-! ### Reductions and acceptance -/

/-- There is no reduction by the start rule. -/
theorem ne_startRule_of_reduce (hp : p.IsMade policy) (h : p.Path states symbols nodes)
    (hs : states.head? = some s) (haction : p.definition.action s name = some (.reduce r)) :
  r ≠ p.grammar.startRule
  := by
  rintro rfl
  obtain ⟨-, -, htake, -⟩ := h.spells_rule hp hs haction
  obtain ⟨start, hitems⟩ := hp.grammar.items_startRule
  -- The path would spell the start rule, and so the end of the input would be on it.
  apply h.eof_not_mem hp
  apply List.mem_of_mem_take
  rw [← List.mem_reverse, htake, Rule.basicItems, hitems]
  simp [Symbol.isBasic]

/-- Below the right side of a rule there is a state with a transition on its term. -/
theorem exists_goto_of_reduce (hp : p.IsMade policy) (h : p.Path states symbols nodes)
    (hs : states.head? = some s) (haction : p.definition.action s name = some (.reduce r)) :
  ∃ origin target, (states.drop r.arity).head? = some origin ∧
    p.definition.goto origin r = some target
  := by
  obtain ⟨-, hle, -, origin, first, horigin, hfirst, hcore⟩ := h.spells_rule hp hs haction
  have hpredicted := (h.drop hle).predicted hp horigin hfirst hcore
    (h.ne_startRule_of_reduce hp hs haction)
  obtain ⟨target, ht⟩ := Automaton.exists_transition_of_predicted hp.grammar (hp.mem_states hfirst)
    hpredicted
  use origin, target, horigin, hp.goto_eq_of_transition hfirst ht

/-- Where the end of the input is accepted, the path is a transition on the term that the start rule
begins with. -/
theorem symbols_of_accept (hp : p.IsMade policy) (h : p.Path states symbols nodes)
    (hs : states.head? = some s) (haction : p.definition.action s name = some .accept) :
  ∃ start, p.grammar.startRule.items = [.term start, .token p.grammar.eof] ∧ symbols = [.term start]
  := by
  obtain ⟨state, -, hstate, haccepts⟩ := hp.accept_spec haction
  have hcore := (Automaton.accepts_iff_mem_cores hp.grammar (hp.mem_states hstate)).mp haccepts
  obtain ⟨hle, htake, origin, first, horigin, hfirst, hinitial⟩ := h.spells hp hs hstate hcore
  have hnil := (h.drop hle).eq_nil_of_startRule hp horigin hfirst hinitial
  obtain ⟨start, hitems⟩ := hp.grammar.items_startRule
  use start, hitems
  obtain ⟨y, rfl⟩ : ∃ y, symbols = [y] := by
    apply List.length_eq_one_iff.mp
    apply Nat.le_antisymm (List.drop_eq_nil_iff.mp hnil) hle
  rw [Rule.basicItems, hitems] at htake
  apply htake

end Path

/-! ### Arranged nodes -/

/-- A prompt is put where the right side has it. -/
theorem arrange_prompt {production : Production} {name : String} {right : List Label}
    {taken : List Node} :
  Engine.arrange (σ := StateId) production (⟨.prompt, name⟩ :: right) taken =
    (Engine.arrange production right taken).map fun children => .prompt name :: children
  := by
  rw [Engine.arrange.eq_def]
  rfl

/-- A node from the stack is put where the right side has its label. -/
theorem arrange_cons {production : Production} {l : Label} {right : List Label} {x : Node}
    {taken : List Node} (hl : l.kind ≠ .prompt) (hx : x.label = l) :
  Engine.arrange (σ := StateId) production (l :: right) (x :: taken) =
    (Engine.arrange production right taken).map fun children => x :: children
  := by
  rw [Engine.arrange, if_neg hl, if_pos hx]

/-- Arranged nodes begin with the first node of the stack if the right side begins with a term or a
token. -/
theorem exists_of_arrange_cons {production : Production} {l : Label} {right : List Label}
    {x : Node} {taken children : List Node} (hl : l.kind ≠ .prompt)
    (ha : Engine.arrange (σ := StateId) production (l :: right) (x :: taken) = .ok children) :
  ∃ rest, x.label = l ∧ Engine.arrange (σ := StateId) production right taken = .ok rest ∧
    children = x :: rest
  := by
  by_cases hx : x.label = l
  · rw [arrange_cons hl hx] at ha
    obtain ⟨rest, hrest, rfl⟩ := Grammar.exists_of_map_eq_ok ha
    use rest
  · rw [Engine.arrange, if_neg hl, if_neg hx] at ha
    cases ha

/-- If the nodes of a right side can be arranged, they are a forest over it together with its
prompts, and no leaf is added. -/
theorem forest_of_arrange {production : Production} {items : List Symbol} {taken children : List Node}
    (h : List.Forall₂ p.Fits (items.filter Symbol.isBasic) taken)
    (ha : Engine.arrange (σ := StateId) production (items.map p.grammar.grammar.label) taken =
      .ok children) :
  p.grammar.grammar.Forest items children ∧ Node.leavesOf children = Node.leavesOf taken
  := by
  induction items generalizing taken children with
  | nil =>
    cases h
    cases ha
    use .nil
  | cons s items ih =>
    obtain ⟨k, id⟩ := s
    rw [List.map_cons] at ha
    cases k with
    | prompt =>
      rw [Grammar.label, arrange_prompt] at ha
      obtain ⟨rest, hrest, rfl⟩ := Grammar.exists_of_map_eq_ok ha
      obtain ⟨hforest, hleaves⟩ := ih h hrest
      use .prompt hforest
      apply hleaves
    | token =>
      obtain ⟨x, taken, hx, htaken, rfl⟩ := List.forall₂_cons_left_iff.mp h
      obtain ⟨rest, hlabel, hrest, rfl⟩ := exists_of_arrange_cons (by rintro ⟨⟩) ha
      obtain ⟨hforest, hleaves⟩ := ih htaken hrest
      obtain ⟨t, rfl, -⟩ := hx
      use .token (Label.mk.inj hlabel).2 hforest
      rw [Node.leavesOf, Node.leavesOf, hleaves]
    | term =>
      obtain ⟨x, taken, hx, htaken, rfl⟩ := List.forall₂_cons_left_iff.mp h
      obtain ⟨rest, -, hrest, rfl⟩ := exists_of_arrange_cons (by rintro ⟨⟩) ha
      obtain ⟨hforest, hleaves⟩ := ih htaken hrest
      use Grammar.Forest.append hx hforest
      rw [Node.leavesOf, Node.leavesOf, hleaves]

namespace Path

variable {e e' : Engine StateId} {lookahead : Option Token} {turn : Turn StateId}
  {children : List Node}

/-- The nodes below a reduction are a forest over the right side of its rule. -/
theorem forest_of_arrangement (hp : p.IsMade policy) (h : p.Path e.states symbols e.nodes)
    (hs : e.states.head? = some s)
    (haction : p.definition.action s (lookahead.map (·.name)) = some (.reduce r))
    (harrange : e.arrangement p.definition r = .ok children) :
  p.grammar.grammar.Forest [.term r.owner]
      [.reduction (p.definition.production r).left children] ∧
    Node.leavesOf children = Node.leavesOf (e.nodes.take r.arity).reverse
  := by
  obtain ⟨hr, -⟩ := h.spells_rule hp hs haction
  have hfits := h.fits_rule hp hs haction
  rw [Engine.arrangement, IsMade.arity_production] at harrange
  obtain ⟨hforest, hleaves⟩ := forest_of_arrange hfits harrange
  use Grammar.Forest.term hr hforest .nil, hleaves

/-- What is left of a path when the nodes of a rule have been taken from the stack. -/
theorem unwind (h : p.Path e.states symbols e.nodes) (hsupports : e.Supports p.definition r) :
  ∃ symbols', p.Path (e.unwind p.definition r).states symbols' (e.unwind p.definition r).nodes
  := by
  use symbols.drop (p.definition.production r).arity
  apply h.drop
  rw [h.fits.length_eq]
  apply hsupports.1

/-- A turn leaves a path on the stacks. -/
theorem turned (hp : p.IsMade policy) (h : p.Path e.states symbols e.nodes)
    (hturned : e.Turned p.definition lookahead e' turn) :
  ∃ symbols', p.Path e'.states symbols' e'.nodes
  := by
  cases hturned with
  | @shift current target t hcurrent _ haction =>
    obtain ⟨states, hstates⟩ := List.head?_eq_some_iff.mp hcurrent
    obtain ⟨n, state, hn, hs, ht⟩ := hp.shift_spec haction
    rw [hstates] at h
    use .token n :: symbols
    simp only [hstates]
    apply Path.step h hs ht
    use t
  | @reduce current exposed target rule children hcurrent haction hsupports harrange hexposed
      hgoto =>
    obtain ⟨symbols', hpath⟩ := h.unwind hsupports
    obtain ⟨states, hstates⟩ := List.head?_eq_some_iff.mp hexposed
    obtain ⟨state, hs, ht⟩ := hp.goto_spec hgoto
    obtain ⟨hforest, -⟩ := h.forest_of_arrangement hp hcurrent haction harrange
    use .term rule.owner :: symbols'
    rw [hstates] at hpath
    simp only [hstates]
    apply Path.step hpath hs ht hforest
  | accept => use symbols
  | refuse hcomplained =>
    obtain ⟨hstates, hnodes, -⟩ := hcomplained
    rw [hstates, hnodes]
    use symbols
  | emptyStates => use symbols
  | shiftAtEnd => use symbols
  | underflow => use symbols
  | inconsistent _ _ hsupports => apply h.unwind hsupports
  | missingGoto _ _ hsupports => apply h.unwind hsupports
  | unbalanced => use symbols

end Path

end Parser

end CanonicalLR
