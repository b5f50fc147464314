import CanonicalLR.Proofs.Parse.Moves
import CanonicalLR.Proofs.Parse.Soundness

/-!
# Parsing is complete

A parser whose table was built without conflicts parses the leaves of every derivation tree of its
grammar, and it returns that tree (`IsMade.parse_leaves`).

If a state has a core, and what is behind its dot begins with some symbols, then from this state an
engine moves over the leaves of any forest over these symbols, and the dot is behind them in the
state it comes to (`IsMade.moves_of_forest`).
-/

namespace CanonicalLR

/-- The symbol may occur in a derivation tree: it is a member of the grammar, and it is neither the
new start term nor the token for the end of the input. -/
def AugmentedGrammar.Ordinary (g : AugmentedGrammar) (x : Symbol) : Prop :=
  g.grammar.contains x = true ∧ x ≠ .token g.eof ∧ x ≠ .term g.startTerm

/-- The rules of an ordinary term consist of ordinary symbols. -/
theorem AugmentedGrammar.WellFormed.ordinary_of_mem_items {g : AugmentedGrammar} (hg : g.WellFormed)
    {r : Rule} (hr : r ∈ g.grammar.rules) (howner : g.Ordinary (.term r.owner)) {x : Symbol}
    (hx : x ∈ r.items) :
  g.Ordinary x
  := by
  use hg.grammar.items_mem r hr x hx
  constructor
  · rintro rfl
    apply hg.eof_not_mem r hr _ hx
    rintro rfl
    apply howner.2.2
    rw [hg.owner_startRule]
  · rintro rfl
    apply hg.startTerm_not_mem r hr hx

/-- The term that the start rule begins with is ordinary. -/
theorem AugmentedGrammar.WellFormed.ordinary_start {g : AugmentedGrammar} (hg : g.WellFormed)
    {start : TermId} {rest : List Symbol} (hstart : g.startRule.items = .term start :: rest) :
  g.Ordinary (.term start)
  := by
  have hmem : .term start ∈ g.startRule.items := by
    rw [hstart]
    apply List.mem_cons_self
  use hg.grammar.items_mem _ hg.startRule_mem _ hmem
  constructor
  · rintro ⟨⟩
  · intro heq
    rw [heq] at hmem
    apply hg.startTerm_not_mem _ hg.startRule_mem hmem

/-- Ordinary symbols derive ordinary tokens. -/
theorem AugmentedGrammar.WellFormed.ordinary_of_derives {g : AugmentedGrammar} (hg : g.WellFormed)
    {items : List Symbol} {w : List TokenId} (h : Derives g.grammar.rules items w)
    (hitems : ∀ x ∈ items, g.Ordinary x) :
  ∀ n ∈ w, g.Ordinary (.token n)
  := by
  induction h with
  | nil => rintro n ⟨⟩
  | prompt _ ih => apply ih fun x hx => hitems x (List.mem_cons_of_mem _ hx)
  | token _ ih =>
    rw [List.forall_mem_cons] at hitems ⊢
    use hitems.1, ih hitems.2
  | term hr _ _ ihv ihw =>
    rw [List.forall_mem_cons] at hitems
    rw [List.forall_mem_append]
    use ihv fun x hx => hg.ordinary_of_mem_items hr hitems.1 hx, ihw hitems.2

/-- The node takes a place on the stack. -/
def Node.isBasic (x : Node) : Bool :=
  x.label.isBasic

namespace Node

variable {nodes : List Node}

@[simp]
theorem filter_isBasic_prompt {name : String} :
  (prompt name :: nodes).filter isBasic = nodes.filter isBasic
  := rfl

@[simp]
theorem filter_isBasic_token {t : Token} :
  (token t :: nodes).filter isBasic = token t :: nodes.filter isBasic
  := rfl

@[simp]
theorem filter_isBasic_reduction {term : String} {children : List Node} :
  (reduction term children :: nodes).filter isBasic = reduction term children :: nodes.filter isBasic
  := rfl

end Node

namespace Parser

variable {p : Parser} {policy : Policy} {s target : StateId} {d : DottedRule} {tokens : IndexSet}
  {items : List Symbol} {nodes : List Node} {n : TokenId} {r : Rule}

/-! ### Cores of states -/

/-- The dotted rule is a core of the state, with the tokens in its lookahead. -/
def Covers (p : Parser) (s : StateId) (d : DottedRule) (tokens : IndexSet) : Prop :=
  ∃ state, p.automaton.states[s]? = some state ∧ state.items.covers d tokens = true

namespace IsMade

/-- The rules of the term behind the dot are cores as well. -/
theorem covers_initial (hp : p.IsMade policy) (h : p.Covers s d tokens) {y : TermId}
    {after : List Symbol} (hy : d.rest = .term y :: after) (hr : r ∈ p.grammar.grammar.rulesOf y) :
  p.Covers s (.initial r) (p.grammar.grammar.analyze.firstsOf tokens after)
  := by
  obtain ⟨state, hs, hcovers⟩ := h
  use state, hs
  obtain ⟨lookahead, hl, htokens⟩ := ItemSet.covers_iff.mp hcovers
  have hclosed := Automaton.closed_items hp.grammar (hp.mem_states hs) d lookahead y after hl hy r hr
  obtain ⟨lookahead', hl', hfirsts⟩ := ItemSet.covers_iff.mp hclosed
  apply ItemSet.covers_iff.mpr
  use lookahead', hl'
  intro n hn
  apply hfirsts n (Analysis.firstsOf_mono htokens hn)

/-- There is a transition on the symbol behind the dot, and the dot is behind that symbol in the
state that it leads to. -/
theorem exists_transition (hp : p.IsMade policy) (h : p.Covers s d tokens) {x : Symbol}
    (hx : d.next? = some x) (hne : x ≠ .token p.grammar.eof) :
  ∃ state target, p.automaton.states[s]? = some state ∧ ⟨x, target⟩ ∈ state.transitions ∧
    p.Covers target d.advance tokens
  := by
  obtain ⟨state, hs, hcovers⟩ := h
  have hmem := hp.mem_states hs
  obtain ⟨lookahead, hl, htokens⟩ := ItemSet.covers_iff.mp hcovers
  have hnext : x ∈ state.items.nextSymbols := by
    apply Automaton.mem_nextSymbols.mpr
    use d, ItemSet.mem_cores_of_covers hcovers
  obtain ⟨target, ht⟩ := (Automaton.exists_transition_iff hp.grammar hmem).mpr ⟨hnext, hne⟩
  obtain ⟨next, hnext, hitems⟩ := Automaton.exists_target hp.grammar hmem ht
  use state, target, hs, ht, next, hp.automaton_eq ▸ hnext
  have hproper := Automaton.proper_items hp.grammar hmem
  have hadvance : (state.items.advance x).covers d.advance tokens = true := by
    apply ItemSet.covers_iff.mpr
    use lookahead
    use hproper.lookahead?_advance_eq_some_iff.mpr ⟨d, hx, rfl, hl⟩
  rw [hitems]
  apply (ItemSet.within_closure hp.grammar.grammar (Automaton.known_analyze hp.grammar)
    hproper.advance).covers hadvance

end IsMade

/-! ### Columns -/

/-- An ordinary token is found in the column of its name. -/
theorem column?_tokenName (hg : p.grammar.WellFormed) (hn : p.grammar.Ordinary (.token n)) :
  p.column? (some (p.grammar.grammar.tokenName n)) = some n
  := by
  obtain ⟨hmem, hne, -⟩ := hn
  apply (column?_eq_some_iff hg).mpr
  constructor
  · rw [← hg.tokenName_eof]
    intro hname
    apply hne (hg.grammar.eq_of_label_eq hmem hg.contains_eof _)
    apply congrArg (Label.mk .token) hname
  · use hmem
    rw [Grammar.tokenName, Text.trim_of_isName (hg.grammar.isName_nameOf hmem)]

/-- The columns of the leaves of a forest are those of a derived sequence. -/
theorem exists_columns (hg : p.grammar.WellFormed) (h : p.grammar.grammar.Forest items nodes)
    (hitems : ∀ x ∈ items, p.grammar.Ordinary x) :
  ∃ w, Derives p.grammar.grammar.rules items w ∧
    (Node.leavesOf nodes).map (fun t => p.column? (some t.name)) = w.map some
  := by
  induction h with
  | nil =>
    use [], .nil
    rfl
  | prompt _ ih =>
    obtain ⟨w, hw, he⟩ := ih fun x hx => hitems x (List.mem_cons_of_mem _ hx)
    use w, .prompt hw, he
  | @token n t items nodes ht _ ih =>
    obtain ⟨w, hw, he⟩ := ih fun x hx => hitems x (List.mem_cons_of_mem _ hx)
    use n :: w, .token hw
    have hcolumn := column?_tokenName hg (hitems (.token n) List.mem_cons_self)
    rw [← ht] at hcolumn
    simp [Node.leavesOf, Node.leaves, hcolumn, he]
  | @term r items children nodes hr _ _ ihc ih =>
    have howner := hitems (.term r.owner) List.mem_cons_self
    obtain ⟨v, hv, hve⟩ := ihc fun x hx => hg.ordinary_of_mem_items hr howner hx
    obtain ⟨w, hw, hwe⟩ := ih fun x hx => hitems x (List.mem_cons_of_mem _ hx)
    use v ++ w, .term hr hv hw
    simp [Node.leavesOf, Node.leaves, hve, hwe]

/-- The column of the next token before and after the leaves of a forest. -/
theorem column?_head?_append {w : List TokenId} {leaves input : List Token}
    (hleaves : leaves.map (fun t => p.column? (some t.name)) = w.map some)
    (hinput : p.column? (input.head?.map (·.name)) = some n) :
  p.column? ((leaves ++ input).head?.map (·.name)) = some (w.headD n)
  := by
  cases leaves with
  | nil =>
    obtain rfl := List.map_eq_nil_iff.mp hleaves.symm
    apply hinput
  | cons t leaves =>
    rw [List.map_cons, eq_comm, List.map_eq_cons_iff] at hleaves
    obtain ⟨m, w, rfl, hm, -⟩ := hleaves
    apply hm.symm

/-! ### Reductions -/

/-- There are as many nodes on the stack as terms and tokens in the symbols. -/
theorem length_filter_of_forest (h : p.grammar.grammar.Forest items nodes) :
  (nodes.filter Node.isBasic).length = (items.filter Symbol.isBasic).length
  := by
  have hlabels := congrArg (fun labels => (labels.filter Label.isBasic).length) h.map_label
  simp only [List.filter_map, List.length_map] at hlabels
  apply hlabels

/-- The nodes of a forest that take a place on the stack are arranged to the forest. -/
theorem arrange_of_forest {production : Production} (h : p.grammar.grammar.Forest items nodes) :
  Engine.arrange (σ := StateId) production (items.map p.grammar.grammar.label)
    (nodes.filter Node.isBasic) = .ok nodes
  := by
  induction h with
  | nil => rfl
  | prompt _ ih =>
    rw [List.map_cons, Grammar.label, arrange_prompt, Node.filter_isBasic_prompt, ih]
    rfl
  | @token n t _ _ ht _ ih =>
    have hlabel : (Node.token t).label = p.grammar.grammar.label (.token n) := by
      rw [Node.label, ht]
      rfl
    rw [List.map_cons, Node.filter_isBasic_token, arrange_cons (by rintro ⟨⟩) hlabel, ih]
    rfl
  | @term r _ children _ _ _ _ _ ih =>
    have hlabel : (Node.reduction (p.grammar.grammar.termName r.owner) children).label =
        p.grammar.grammar.label (.term r.owner) := rfl
    rw [List.map_cons, Node.filter_isBasic_reduction, arrange_cons (by rintro ⟨⟩) hlabel, ih]
    rfl

/-- Without conflicts, an action that a state asks for is an answer of the parser. -/
theorem IsMade.action_eq (hp : p.IsMade .fail) {state : State} {action : Action}
    {decision : Decision StateId Rule} {lookahead : Option String}
    (hs : p.automaton.states[s]? = some state)
    (hcell : (.token n, action) ∈ state.candidates p.grammar.eof)
    (hn : p.column? lookahead = some n) (hdecision : decision? action = some decision) :
  p.definition.action s lookahead = some decision
  := by
  change ((p.column? lookahead).bind fun t => (p.table.action? s (.token t)).bind decision?) = _
  rw [hn, Option.bind_some, hp.table.action?_of_mem_candidates hs hcell, Option.bind_some, hdecision]

/-- Where a rule has been read to its end, it is reduced if the next token may come then. -/
theorem IsMade.action_eq_reduce (hp : p.IsMade .fail) {lookahead : Option String}
    (h : p.Covers s ⟨r, r.arity⟩ tokens) (hn : n ∈ tokens) (hcolumn : p.column? lookahead = some n) :
  p.definition.action s lookahead = some (.reduce r)
  := by
  obtain ⟨state, hs, hcovers⟩ := h
  obtain ⟨lookahead', hl, htokens⟩ := ItemSet.covers_iff.mp hcovers
  have hcell : (.token n, .reduce r) ∈ state.candidates p.grammar.eof := by
    apply State.reduce_mem_candidates.mpr
    use ⟨⟨r, r.arity⟩, lookahead'⟩, ItemSet.exists_entry_of_lookahead? hl
    constructor
    · rw [DottedRule.isComplete, DottedRule.rest, Rule.arity, List.drop_length]
      rfl
    · use rfl, n, htokens n hn
  apply hp.action_eq hs hcell hcolumn rfl

/-- An engine with a forest over a right side on its stacks reduces it to a tree. -/
theorem IsMade.reduced_of_forest {e : Engine StateId} {lookahead : Option Token}
    {states : List StateId} {s' : StateId} (h : p.grammar.grammar.Forest r.items nodes)
    (hlength : states.length = r.arity) (hs : (states ++ e.states).head? = some s')
    (haction : p.definition.action s' (lookahead.map (·.name)) = some (.reduce r))
    (hexposed : e.states.head? = some s) (hgoto : p.definition.goto s r = some target) :
  ((e.extend states (nodes.filter Node.isBasic).reverse).advance p.definition lookahead).outcome =
      .reduced ∧
    ((e.extend states (nodes.filter Node.isBasic).reverse).advance p.definition lookahead).engine =
      e.extend [target] [.reduction (p.grammar.grammar.termName r.owner) nodes]
  := by
  have hnodes : (nodes.filter Node.isBasic).reverse.length = (p.definition.production r).arity := by
    rw [List.length_reverse, length_filter_of_forest h, arity_production]
    rfl
  have hstates : states.length = (p.definition.production r).arity := by
    rw [hlength, arity_production]
  have hunwind : (e.extend states (nodes.filter Node.isBasic).reverse).unwind p.definition r = e :=
    Engine.unwind_extend hstates hnodes
  have hsupports : (e.extend states (nodes.filter Node.isBasic).reverse).Supports p.definition r := by
    obtain ⟨below, hbelow⟩ := List.head?_eq_some_iff.mp hexposed
    rw [Engine.Supports, ← hnodes, Engine.extend, List.length_append, List.length_append, hbelow]
    constructor
    · apply Nat.le_add_right
    · rw [hnodes, ← hstates]
      apply Nat.lt_add_of_pos_right (Nat.succ_pos _)
  have harrange : (e.extend states (nodes.filter Node.isBasic).reverse).arrangement p.definition r =
      .ok nodes := by
    rw [Engine.arrangement, ← hnodes, Engine.extend, List.take_left, List.reverse_reverse]
    apply arrange_of_forest h
  have hexposed' : ((e.extend states (nodes.filter Node.isBasic).reverse).unwind
      p.definition r).states.head? = some s := by
    rw [hunwind]
    apply hexposed
  have hreduce := Engine.advance_reduce hs haction hsupports harrange hexposed' hgoto
  rw [hunwind] at hreduce
  apply hreduce

/-! ### Next states -/

/-- A token behind the dot is shifted, and in the next state the dot is behind it. -/
theorem IsMade.exists_shift (hp : p.IsMade .fail) (h : p.Covers s d tokens)
    (hnext : d.next? = some (.token n)) (hn : p.grammar.Ordinary (.token n)) :
  ∃ target, p.definition.action s (some (p.grammar.grammar.tokenName n)) = some (.shift target) ∧
    p.Covers target d.advance tokens
  := by
  obtain ⟨state, target, hs, ht, hcovers⟩ := hp.exists_transition h hnext hn.2.1
  use target
  constructor
  · apply hp.action_eq hs (State.shift_mem_candidates.mpr ⟨ht, rfl⟩) _ rfl
    apply column?_tokenName hp.grammar hn
  · apply hcovers

/-- For a rule of the term behind the dot there is a next state, and in that the dot is behind the
term. -/
theorem IsMade.exists_goto (hp : p.IsMade policy) (h : p.Covers s d tokens)
    (hnext : d.next? = some (.term r.owner)) :
  ∃ target, p.definition.goto s r = some target ∧ p.Covers target d.advance tokens
  := by
  obtain ⟨state, target, hs, ht, hcovers⟩ := hp.exists_transition h hnext (by rintro ⟨⟩)
  use target, hp.goto_eq_of_transition hs ht

/-- If the leaves of a forest are behind the term behind the dot, then the rules of that term are
cores, and the token after the term is in their lookahead. -/
theorem IsMade.exists_covers_initial (hp : p.IsMade policy) (h : p.Covers s d tokens)
    (hr : r ∈ p.grammar.grammar.rules) {more : List Symbol}
    (hrest : d.rest = .term r.owner :: (items.filter Symbol.isBasic ++ more))
    (hforest : p.grammar.grammar.Forest items nodes) (hitems : ∀ x ∈ items, p.grammar.Ordinary x)
    {input : List Token} (hn : n ∈ p.grammar.grammar.analyze.firstsOf tokens more)
    (hinput : p.column? (input.head?.map (·.name)) = some n) :
  ∃ tokens' n', p.Covers s (.initial r) tokens' ∧ n' ∈ tokens' ∧
    p.column? ((Node.leavesOf nodes ++ input).head?.map (·.name)) = some n'
  := by
  obtain ⟨w, hw, hcolumns⟩ := exists_columns hp.grammar hforest hitems
  use p.grammar.grammar.analyze.firstsOf tokens (items.filter Symbol.isBasic ++ more), w.headD n
  constructor
  · apply hp.covers_initial h hrest (Grammar.mem_rulesOf.mpr ⟨hr, rfl⟩)
  · constructor
    · rw [Analysis.firstsOf_append, Analysis.firstsOf_filter]
      apply Analysis.headD_mem_firstsOf hp.grammar.grammar hw hn
    · apply column?_head?_append hcolumns hinput

/-! ### Moving over forests -/

/-- The engine moves over the leaves of the nodes, which are then on the stack, and in the state it
comes to the dot is behind the symbols. -/
def MovesOver (p : Parser) (e : Engine StateId) (d : DottedRule) (tokens : IndexSet)
    (items : List Symbol) (nodes : List Node) (input : List Token) : Prop :=
  ∃ states s, states.length = (items.filter Symbol.isBasic).length ∧
    e.Moves p.definition (Node.leavesOf nodes ++ input)
      (e.extend states (nodes.filter Node.isBasic).reverse) input ∧
    (states ++ e.states).head? = some s ∧
    p.Covers s ⟨d.rule, d.dot + (items.filter Symbol.isBasic).length⟩ tokens

/-- To move over some nodes is to move over the first and then over the others. -/
theorem MovesOver.cons {e : Engine StateId} {x : Node} {y : Symbol} {input : List Token}
    (hx : x.isBasic = true) (hy : y.isBasic = true)
    (hmoves : e.Moves p.definition (x.leaves ++ (Node.leavesOf nodes ++ input))
      (e.extend [target] [x]) (Node.leavesOf nodes ++ input))
    (h : p.MovesOver (e.extend [target] [x]) d.advance tokens items nodes input) :
  p.MovesOver e d tokens (y :: items) (x :: nodes) input
  := by
  obtain ⟨states, s, hlength, hrest, hs, hcovers⟩ := h
  use states ++ [target], s
  rw [List.filter_cons_of_pos hx, List.filter_cons_of_pos hy, List.reverse_cons]
  constructor
  · rw [List.length_append, List.length_cons, hlength]
    rfl
  · constructor
    · rw [Engine.extend_extend] at hrest
      rw [Node.leavesOf, List.append_assoc]
      apply hmoves.trans hrest
    · constructor
      · rw [List.append_assoc]
        apply hs
      · rw [List.length_cons, Nat.add_comm _ 1, ← Nat.add_assoc]
        apply hcovers

/-- An engine that moves over the children of a tree reduces them to the tree. -/
theorem IsMade.moves_of_movesOver (hp : p.IsMade .fail) {e : Engine StateId} {input : List Token}
    (hforest : p.grammar.grammar.Forest r.items nodes) (hs : e.states.head? = some s)
    (h : p.MovesOver e (.initial r) tokens r.items nodes input) (hn : n ∈ tokens)
    (hinput : p.column? (input.head?.map (·.name)) = some n)
    (hgoto : p.definition.goto s r = some target) :
  e.Moves p.definition (Node.leavesOf nodes ++ input)
    (e.extend [target] [.reduction (p.grammar.grammar.termName r.owner) nodes]) input
  := by
  obtain ⟨states, s', hlength, hmoves, hs', hcovers⟩ := h
  rw [DottedRule.initial, Nat.zero_add] at hcovers
  have hreduced := reduced_of_forest hforest hlength hs'
    (hp.action_eq_reduce hcovers hn hinput) hs hgoto
  apply hmoves.trans (.reduce hreduced.1 _)
  rw [hreduced.2]
  apply Engine.Moves.refl

/-- An engine moves over the leaves of a forest over the symbols behind the dot. -/
theorem IsMade.moves_of_forest (hp : p.IsMade .fail) (h : p.grammar.grammar.Forest items nodes)
    (hitems : ∀ x ∈ items, p.grammar.Ordinary x) {e : Engine StateId}
    (hs : e.states.head? = some s) (hcovers : p.Covers s d tokens) {more : List Symbol}
    (hrest : d.rest = items.filter Symbol.isBasic ++ more) {input : List Token}
    (hn : n ∈ p.grammar.grammar.analyze.firstsOf tokens more)
    (hinput : p.column? (input.head?.map (·.name)) = some n) :
  p.MovesOver e d tokens items nodes input
  := by
  induction h generalizing e s d tokens more input n with
  | nil =>
    use [], s, rfl, .refl, hs
    apply hcovers
  | prompt _ ih =>
    apply ih (fun x hx => hitems x (List.mem_cons_of_mem _ hx)) hs hcovers hrest hn hinput
  | @token m t items nodes ht _ ih =>
    obtain ⟨hnext, hrest'⟩ := DottedRule.next?_and_rest_advance hrest
    obtain ⟨target, haction, hcovers'⟩ :=
      hp.exists_shift hcovers hnext (hitems (.token m) List.mem_cons_self)
    rw [← ht] at haction
    apply MovesOver.cons rfl rfl (.shift hs haction .refl)
    apply ih (fun x hx => hitems x (List.mem_cons_of_mem _ hx)) rfl hcovers' hrest' hn hinput
  | @term r items children nodes hr hc hforest ihc ih =>
    obtain ⟨hnext, hrest'⟩ := DottedRule.next?_and_rest_advance hrest
    obtain ⟨target, hgoto, hcovers'⟩ := hp.exists_goto hcovers hnext
    have howner := hitems (.term r.owner) List.mem_cons_self
    have hitems' : ∀ x ∈ items, p.grammar.Ordinary x :=
      fun x hx => hitems x (List.mem_cons_of_mem _ hx)
    obtain ⟨tokens', n', hinitial, hn', hinput'⟩ :=
      hp.exists_covers_initial hcovers hr hrest hforest hitems' hn hinput
    -- The engine moves over the children of the first tree, and then over the other trees.
    have hchildren := ihc (fun x hx => hp.grammar.ordinary_of_mem_items hr howner hx) hs hinitial
      (List.append_nil _).symm hn' hinput'
    apply MovesOver.cons rfl rfl (hp.moves_of_movesOver hc hs hchildren hn' hinput' hgoto)
    apply ih hitems' rfl hcovers' hrest' hn hinput

/-! ### Parsing the leaves of a tree -/

/-- The first state has the start rule as a core, with the end of the input in its lookahead. -/
theorem IsMade.covers_startRule (hp : p.IsMade policy) :
  p.Covers 0 (.initial p.grammar.startRule) (.singleton p.grammar.eof)
  := by
  obtain ⟨first, hfirst, hitems⟩ := Automaton.exists_first hp.grammar
  use first, hp.automaton_eq ▸ hfirst
  rw [hitems]
  apply (ItemSet.within_closure hp.grammar.grammar (Automaton.known_analyze hp.grammar)
    (Automaton.proper_initialKernel hp.grammar)).covers
  apply ItemSet.covers_iff.mpr
  use .singleton p.grammar.eof
  constructor
  · simp [ItemSet.lookahead?, Automaton.initialKernel]
  · simp

/-- Where the start rule has been read up to the end of the input, that is accepted. -/
theorem IsMade.action_eq_accept (hp : p.IsMade .fail)
    (h : p.Covers s ⟨p.grammar.startRule, 1⟩ tokens) :
  p.definition.action s none = some .accept
  := by
  obtain ⟨state, hs, hcovers⟩ := h
  have hcell : (.token p.grammar.eof, .accept) ∈ state.candidates p.grammar.eof := by
    apply State.accept_mem_candidates.mpr
    use (Automaton.accepts_iff_mem_cores hp.grammar (hp.mem_states hs)).mpr
      (ItemSet.mem_cores_of_covers hcovers)
  apply hp.action_eq hs hcell rfl rfl

/-- The leaves of a derivation tree are parsed to that tree. -/
theorem IsMade.parse_leaves (hp : p.IsMade .fail) {x : Node} (hx : p.grammar.DerivationTree x)
    (cap : Nat) :
  p.parse x.leaves cap = .ok ⟨some x, []⟩
  := by
  obtain ⟨start, rest, hstart, hforest⟩ := hx
  obtain ⟨start', hitems⟩ := hp.grammar.items_startRule
  obtain ⟨⟨⟩, rfl⟩ := List.cons.inj (hitems.symm.trans hstart)
  have hordinary := hp.grammar.ordinary_start hitems
  have hrest : (DottedRule.initial p.grammar.startRule).rest =
      [.term start].filter Symbol.isBasic ++ [.token p.grammar.eof] := by
    rw [DottedRule.rest, DottedRule.initial, Rule.basicItems, hitems]
    rfl
  have heof : p.grammar.eof ∈ p.grammar.grammar.analyze.firstsOf (.singleton p.grammar.eof)
      [.token p.grammar.eof] :=
    IndexSet.mem_union.mpr (.inl (IndexSet.mem_singleton.mpr rfl))
  have hover : p.MovesOver (.new p.definition cap) (.initial p.grammar.startRule)
      (.singleton p.grammar.eof) [.term start] [x] [] :=
    hp.moves_of_forest hforest (by simpa using hordinary) rfl hp.covers_startRule hrest heof rfl
  obtain ⟨states, s, -, hmoves, hs, hcovers⟩ := hover
  obtain ⟨r, -, -, children, -, rfl⟩ := Grammar.Forest.term_iff.mp hforest
  rw [Node.leavesOf, Node.leavesOf, List.append_nil, List.append_nil] at hmoves
  rw [Parser.parse, Engine.outcome_parse, (hp.readAll_eq_of_moves rfl hmoves).2]
  apply Engine.readAll_eq_of_accept rfl hs (hp.action_eq_accept hcovers) rfl rfl

/-- A forest over one symbol is one tree. -/
theorem exists_of_forest_singleton {g : Grammar} {y : Symbol} (h : g.Forest [y] nodes) :
  ∃ x, nodes = [x]
  := by
  have hlength := congrArg List.length h.map_label
  rw [List.length_map, List.length_map] at hlength
  apply List.length_eq_one_iff.mp hlength

/-- Tokens with the names of the leaves of a derivation tree are parsed to that tree, with these
tokens at its leaves. -/
theorem IsMade.parse_of_map_name_eq (hp : p.IsMade .fail) {x : Node}
    (hx : p.grammar.DerivationTree x) {tokens : List Token}
    (hnames : tokens.map Token.name = x.leaves.map Token.name) (cap : Nat) :
  ∃ y, y.outline = x.outline ∧ y.leaves = tokens ∧ p.parse tokens cap = .ok ⟨some y, []⟩
  := by
  obtain ⟨start, rest, hstart, hforest⟩ := hx
  have hleaves : Node.leavesOf [x] = x.leaves := List.append_nil _
  rw [← hleaves] at hnames
  obtain ⟨trees, hforest', rfl, houtlines⟩ := hforest.refill hnames
  obtain ⟨y, rfl⟩ := exists_of_forest_singleton hforest'
  have hleaves' : Node.leavesOf [y] = y.leaves := List.append_nil _
  use y, (List.cons.inj houtlines).1, hleaves'.symm
  rw [hleaves']
  apply hp.parse_leaves ⟨start, rest, hstart, hforest'⟩ cap

/-- A parser whose table was built without conflicts returns, for any tokens with the names of the
leaves of a derivation tree, that tree with these tokens at its leaves.  So it parses everything that
the start term generates, and no two derivation trees have leaves with the same names. -/
theorem parse_complete {g : Grammar} {settings : Settings} (hg : g.Built)
    (hp : Parser.build settings g = .ok p) (hpolicy : settings.policy = .fail) :
  (∀ x, p.grammar.DerivationTree x → ∀ tokens : List Token,
    tokens.map Token.name = x.leaves.map Token.name → ∀ cap,
      ∃ y, y.outline = x.outline ∧ y.leaves = tokens ∧ p.parse tokens cap = .ok ⟨some y, []⟩) ∧
    (∀ start rest, p.grammar.startRule.items = .term start :: rest → ∀ tokens : List Token,
      p.grammar.grammar.Generates start (tokens.map Token.name) → ∀ cap,
        ∃ y, p.grammar.DerivationTree y ∧ y.leaves = tokens ∧
          p.parse tokens cap = .ok ⟨some y, []⟩) ∧
    ∀ x y, p.grammar.DerivationTree x → p.grammar.DerivationTree y →
      x.leaves.map Token.name = y.leaves.map Token.name → x.outline = y.outline
  := by
  have hmade : p.IsMade .fail := hpolicy ▸ isMade_build hg.wellFormed hp
  constructor
  · intro x hx tokens hnames cap
    apply hmade.parse_of_map_name_eq hx hnames cap
  · constructor
    · rintro start rest hstart tokens ⟨w, hw, hnames⟩ cap
      obtain ⟨nodes, hforest, rfl⟩ := hw.forest hnames.symm
      obtain ⟨y, rfl⟩ := exists_of_forest_singleton hforest
      have hleaves : Node.leavesOf [y] = y.leaves := List.append_nil _
      have hy : p.grammar.DerivationTree y := ⟨start, rest, hstart, hforest⟩
      use y, hy, hleaves.symm
      rw [hleaves]
      apply hmade.parse_leaves hy cap
    · intro x y hx hy hnames
      -- The leaves of the first tree are parsed to both of them.
      obtain ⟨y', houtline, -, hparse⟩ := hmade.parse_of_map_name_eq hy hnames 0
      rw [hmade.parse_leaves hx 0] at hparse
      cases hparse
      apply houtline

/-- A grammar of sequences of brackets, with a prompt in every pair of them. -/
def brackets : Grammar :=
  ((Grammar.ofProductions "S" [⟨"S", []⟩, ⟨"S", [⟨.token, "("⟩, ⟨.prompt, "nest"⟩, ⟨.term, "S"⟩,
    ⟨.token, ")"⟩, ⟨.term, "S"⟩]⟩]).toOption).getD .empty

theorem built_brackets :
  brackets.Built
  := Grammar.built_getD_ofProductions

/-- A pair of brackets with another pair in it. -/
def nestedBrackets : Node :=
  let pair (inner : Node) := Node.reduction "S" [.token ⟨"(", "(", .unknown⟩, .prompt "nest", inner,
    .token ⟨")", ")", .unknown⟩, .reduction "S" []]
  pair (pair (.reduction "S" []))

/-- Nested brackets are parsed to a tree with the given tokens. -/
theorem parse_complete_brackets :
  ∃ p, Parser.build ⟨.fail, true, true⟩ brackets = .ok p ∧ p.grammar.DerivationTree nestedBrackets ∧
    ∀ tokens : List Token, tokens.map Token.name = ["(", "(", ")", ")"] → ∀ cap,
      ∃ y, y.outline = nestedBrackets.outline ∧ y.leaves = tokens ∧
        p.parse tokens cap = .ok ⟨some y, []⟩
  := by
  have hrun : ((Parser.build ⟨.fail, true, true⟩ brackets).toOption.bind fun p =>
      (p.parse nestedBrackets.leaves 0).toOption) = some ⟨some nestedBrackets, []⟩ := by
    decide +kernel
  obtain ⟨p, hp, hparse⟩ := Option.bind_eq_some_iff.mp hrun
  have hp := Grammar.eq_ok_of_toOption_eq_some hp
  have hparse := Grammar.eq_ok_of_toOption_eq_some hparse
  have htree := ((isMade_build built_brackets.wellFormed hp).derivationTree hparse rfl).1
  use p, hp, htree
  apply (parse_complete built_brackets hp rfl).1 nestedBrackets htree

end Parser

end CanonicalLR
