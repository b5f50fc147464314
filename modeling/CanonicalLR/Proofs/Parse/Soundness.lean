import CanonicalLR.Proofs.Parse.Path

/-!
# Parsing is sound

Every tree that a parser returns is a derivation tree of its grammar, and its leaves are the tokens
of the input, whatever has become of conflicts in the table
(`Parser.derivationTree_of_parse`).

While an engine reads, its stacks are a path, and as long as there is no complaint, the leaves of the
nodes are the tokens that have been read (`Parser.Tracks`).
-/

namespace CanonicalLR.Parser

open Engine

variable {p : Parser} {policy : Policy} {e e' : Engine StateId} {lookahead : Option Token}
  {turn : Turn StateId} {read tokens : List Token} {t : Token}

/-- The engine has read the tokens: its stacks are a path, and if there was no complaint, it goes on,
and the tokens are the leaves of its nodes. -/
structure Tracks (p : Parser) (e : Engine StateId) (read : List Token) : Prop where
  path : ∃ symbols, p.Path e.states symbols e.nodes
  running : e.complaints = [] → e.status = .running
  leaves : e.complaints = [] → Node.leavesOf e.nodes.reverse = read

namespace Tracks

/-- The engine that has read nothing yet. -/
theorem new (p : Parser) (cap : Nat) :
  p.Tracks (.new p.definition cap) []
  := by
  constructor
  · use [], .start
  · intro _
    rfl
  · intro _
    rfl

/-- After a complaint nothing is known but that the stacks are a path. -/
theorem complained (h : p.Tracks e read) (he : e.Complained e') :
  p.Tracks e' tokens
  := by
  obtain ⟨hstates, hnodes, hcomplaints⟩ := he
  constructor
  · rw [hstates, hnodes]
    apply h.path
  · intro hnone
    apply absurd hnone hcomplaints
  · intro hnone
    apply absurd hnone hcomplaints

/-- A reduction has the leaves of the nodes that it takes from the stack. -/
theorem reduced (hp : p.IsMade policy) (h : p.Tracks e read)
    (hturned : e.Turned p.definition lookahead e' .reduced) :
  p.Tracks e' read
  := by
  obtain ⟨symbols, hpath⟩ := h.path
  have hpath' := hpath.turned hp hturned
  cases hturned with
  | @reduce current exposed target r children hcurrent haction hsupports harrange =>
    use hpath', h.running
    intro hnone
    obtain ⟨-, hleaves⟩ := hpath.forest_of_arrangement hp hcurrent haction harrange
    rw [← h.leaves hnone, ← List.take_append_drop r.arity e.nodes]
    simp only [unwind, IsMade.arity_production, List.reverse_cons, List.reverse_append,
      Node.leavesOf_append, Node.leavesOf, Node.leaves, List.append_nil, hleaves]

/-- Reductions are made until the lookahead is dealt with in a last turn. -/
theorem exists_of_drive (hp : p.IsMade policy) (h : p.Tracks e read)
    (hok : (e.drive p.definition lookahead).outcome = .ok ()) :
  ∃ e₁, p.Tracks e₁ read ∧
    e₁.Turned p.definition lookahead (e.drive p.definition lookahead).engine .settled
  := by
  apply exists_of_driveFor _ h hok
  intro e e' he hturned
  apply he.reduced hp hturned

/-- A token that has been dealt with has been read, or there was a complaint. -/
theorem settled (hp : p.IsMade policy) (h : p.Tracks e read)
    (hturned : e.Turned p.definition (some t) e' .settled) :
  p.Tracks e' (read ++ [t])
  := by
  obtain ⟨symbols, hpath⟩ := h.path
  have hpath' := hpath.turned hp hturned
  cases hturned with
  | shift _ ht =>
    cases ht
    use hpath', h.running
    intro hnone
    rw [← h.leaves hnone]
    simp only [List.reverse_cons, Node.leavesOf_append, Node.leavesOf, Node.leaves, List.append_nil]
  | accept _ ht => cases ht
  | refuse hcomplained => apply h.complained hcomplained

/-- After a token has been offered without a fault, it has been read, or there was a complaint. -/
theorem offer (hp : p.IsMade policy) (h : p.Tracks e read)
    (hok : (e.offer p.definition t).outcome = .ok ()) :
  p.Tracks (e.offer p.definition t).engine (read ++ [t])
  := by
  rw [Engine.offer] at hok ⊢
  cases hstatus : e.status with
  | running =>
    rw [hstatus] at hok
    obtain ⟨e₁, he₁, hturned⟩ := h.exists_of_drive hp hok
    apply he₁.settled hp hturned
  | accepted => apply h.complained (complained_complain e _)
  | stopped =>
    have hne : e.complaints ≠ [] := by
      intro hnone
      rw [h.running hnone] at hstatus
      cases hstatus
    apply h.complained ⟨rfl, rfl, hne⟩

/-- After all tokens have been offered without a fault, they have been read, or there was a
complaint. -/
theorem offerAll (hp : p.IsMade policy) (h : p.Tracks e read)
    (hok : (e.offerAll p.definition tokens).outcome = .ok ()) :
  p.Tracks (e.offerAll p.definition tokens).engine (read ++ tokens)
  := by
  induction tokens generalizing e read with
  | nil =>
    rw [List.append_nil]
    apply h
  | cons t tokens ih =>
    rw [Engine.offerAll] at hok ⊢
    split
    · next hstopped =>
      have hne : e.complaints ≠ [] := by
        intro hnone
        rw [isStopped, h.running hnone] at hstopped
        cases hstopped
      apply h.complained ⟨rfl, rfl, hne⟩
    · next hrunning =>
      rw [if_neg hrunning] at hok
      have hoffer := h.offer hp (t := t)
      cases hreply : e.offer p.definition t with
      | mk e' outcome consulted =>
        rw [hreply] at hok hoffer
        cases outcome with
        | error fault => cases hok
        | ok answer =>
          rw [List.append_cons]
          apply ih (hoffer rfl) hok

/-- If the end of the input is accepted, then the tree on the stack is a derivation tree. -/
theorem accepted (hp : p.IsMade policy) (h : p.Tracks e read) {x : Node} {s : StateId}
    (hs : e.states.head? = some s) (haction : p.definition.action s none = some .accept)
    (hx : e.nodes = [x]) (hnone : e.complaints = []) :
  p.grammar.DerivationTree x ∧ x.leaves = read
  := by
  obtain ⟨symbols, hpath⟩ := h.path
  obtain ⟨start, hitems, rfl⟩ := hpath.symbols_of_accept hp hs haction
  have hfits := hpath.fits
  rw [hx] at hfits
  obtain ⟨hy, -⟩ := List.forall₂_cons.mp hfits
  constructor
  · use start, [.token p.grammar.eof], hitems, hy
  · have hleaves := h.leaves hnone
    rw [hx] at hleaves
    simpa [Node.leavesOf] using hleaves

/-- If there is no complaint when the end of the input has been offered, then the tree on the stack is
a derivation tree. -/
theorem offerEnd (hp : p.IsMade policy) (h : p.Tracks e read) {x : Node}
    (hok : (e.offerEnd p.definition).outcome = .ok ())
    (hnone : (e.offerEnd p.definition).engine.complaints = [])
    (hx : (e.offerEnd p.definition).engine.nodes.head? = some x) :
  p.grammar.DerivationTree x ∧ x.leaves = read
  := by
  rw [Engine.offerEnd] at hok hnone hx
  split at hok
  · next hrunning =>
    rw [hrunning] at hnone hx
    obtain ⟨e₁, he₁, hturned⟩ := h.exists_of_drive hp hok
    simp only at hnone hx
    generalize (e.drive p.definition none).engine = e' at hturned hnone hx
    cases hturned with
    | shift _ hlookahead => cases hlookahead
    | @accept current x' hcurrent _ haction hnodes =>
      obtain rfl : x' = x := by
        rw [hnodes] at hx
        apply Option.some.inj hx
      apply he₁.accepted hp hcurrent haction hnodes hnone
    | refuse hcomplained => apply absurd hnone hcomplained.2.2
  · next hrunning =>
    -- Only an engine with complaints has come to its end before the end of the input.
    have hnone' : e.complaints = [] := by
      split at hnone
      · next hrunning' => apply absurd hrunning' hrunning
      · apply hnone
    apply absurd (h.running hnone') hrunning

/-- The tree that is left when the input has been read is a derivation tree. -/
theorem finish (hp : p.IsMade policy) (h : p.Tracks e read) {result : ParseResult}
    (hfinish : (e.finish p.definition).outcome = .ok result) {x : Node}
    (hx : result.tree = some x) :
  p.grammar.DerivationTree x ∧ x.leaves = read
  := by
  obtain ⟨_, hoffer, rfl⟩ := Grammar.exists_of_map_eq_ok hfinish
  rw [result] at hx
  simp only at hx
  split at hx
  · next haccepted =>
    rw [Bool.and_eq_true, List.isEmpty_iff] at haccepted
    apply h.offerEnd hp hoffer haccepted.2 hx
  · cases hx

end Tracks

/-- A tree that is returned is a derivation tree, and its leaves are the tokens of the input. -/
theorem IsMade.derivationTree (hp : p.IsMade policy) {cap : Nat} {result : ParseResult}
    (h : p.parse tokens cap = .ok result) {x : Node} (hx : result.tree = some x) :
  p.grammar.DerivationTree x ∧ x.leaves = tokens
  := by
  rw [Parser.parse, outcome_parse, readAll] at h
  cases hread : (Engine.new p.definition cap).offerAll p.definition tokens with
  | mk e outcome consulted =>
    rw [hread] at h
    cases outcome with
    | error fault => cases h
    | ok answer =>
      have htracks : ((Engine.new p.definition cap).offerAll p.definition tokens).outcome = .ok () →
          p.Tracks _ ([] ++ tokens) := (Tracks.new p cap).offerAll hp
      rw [hread] at htracks
      apply (htracks rfl).finish hp h hx

/-- Whatever becomes of conflicts, a tree that is returned is a derivation tree of the grammar that
the parser is made of, and its leaves are the tokens of the input. -/
theorem derivationTree_of_parse {g : Grammar} {settings : Settings} (hg : g.Built)
    (hp : Parser.build settings g = .ok p) {cap : Nat} {result : ParseResult}
    (h : p.parse tokens cap = .ok result) {x : Node} (hx : result.tree = some x) :
  p.grammar.DerivationTree x ∧ x.leaves = tokens
  := (isMade_build hg.wellFormed hp).derivationTree h hx

/-- A grammar of sums, by which a sum of three numbers can be read in two ways. -/
def sums : Grammar :=
  ((Grammar.ofProductions "S" [⟨"S", [⟨.token, "n"⟩]⟩,
    ⟨"S", [⟨.term, "S"⟩, ⟨.prompt, "add"⟩, ⟨.token, "+"⟩, ⟨.term, "S"⟩]⟩]).toOption).getD .empty

theorem built_sums :
  sums.Built
  := Grammar.built_getD_ofProductions

/-- A sum of three numbers in which the sum of the last two is a part. -/
def sumOfThree : Node :=
  let number (text : String) := Node.reduction "S" [.token ⟨"n", text, .unknown⟩]
  let plus := Node.token ⟨"+", "+", .unknown⟩
  .reduction "S" [number "1", .prompt "add", plus,
    .reduction "S" [number "2", .prompt "add", plus, number "3"]]

/-- Where a shift takes the place of a reduction, sums are put together from the right. -/
theorem derivationTree_of_parse_sums :
  ∃ p, Parser.build ⟨.preferShift, false, false⟩ sums = .ok p ∧
    p.parse sumOfThree.leaves 0 = .ok ⟨some sumOfThree, []⟩ ∧ p.grammar.DerivationTree sumOfThree
  := by
  have hrun : ((Parser.build ⟨.preferShift, false, false⟩ sums).toOption.bind fun p =>
      (p.parse sumOfThree.leaves 0).toOption) = some ⟨some sumOfThree, []⟩ := by
    decide +kernel
  obtain ⟨p, hp, hparse⟩ := Option.bind_eq_some_iff.mp hrun
  have hp := Grammar.eq_ok_of_toOption_eq_some hp
  have hparse := Grammar.eq_ok_of_toOption_eq_some hparse
  use p, hp, hparse
  apply (derivationTree_of_parse built_sums hp hparse rfl).1

end CanonicalLR.Parser
