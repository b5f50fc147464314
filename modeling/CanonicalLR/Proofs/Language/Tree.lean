import CanonicalLR.Grammar.Augmented
import CanonicalLR.Parse.Node
import CanonicalLR.Proofs.Language.Derivation

/-!
# Derivation trees

A list of trees is a *forest* over a sequence of symbols (`Grammar.Forest`) if each tree has the
label of the symbol at its place, and the trees below a reduction are a forest over the right side
of a rule, its prompts included.  The derivation trees of an augmented grammar are the trees over
the term that its start rule begins with (`AugmentedGrammar.DerivationTree`).

Forests and derivations are two views of the same thing: the leaves of a forest are named like a
sequence that is derived (`Forest.derives`), and each derived sequence is that of the leaves of
some forest (`Derives.forest`).  The tokens at the leaves can be exchanged for others with the same
names (`Forest.refill`), which changes nothing in the `outline` of the trees.
-/

namespace CanonicalLR

/-! ### Leaves and outlines -/

namespace Node

@[simp]
theorem leavesOf_append (xs ys : List Node) :
  leavesOf (xs ++ ys) = leavesOf xs ++ leavesOf ys
  := by
  induction xs with
  | nil => rfl
  | cons x xs ih => rw [List.cons_append, leavesOf, leavesOf, ih, List.append_assoc]

mutual

/-- The tree in which nothing but the names of the tokens is left at the leaves. -/
def outline : Node → Node
  | reduction term children => reduction term (outlines children)
  | token t => token ⟨t.name, "", .unknown⟩
  | prompt name => prompt name

/-- The outlines of the trees of a list. -/
def outlines : List Node → List Node
  | [] => []
  | x :: xs => x.outline :: outlines xs

end

end Node

/-! ### Forests -/

/-- The trees are derivation trees of the symbols, one for each. -/
inductive Grammar.Forest (g : Grammar) : List Symbol → List Node → Prop where
  | nil : g.Forest [] []
  | prompt {p : PromptId} {items : List Symbol} {nodes : List Node} :
      g.Forest items nodes → g.Forest (.prompt p :: items) (.prompt (g.nameOf (.prompt p)) :: nodes)
  | token {n : TokenId} {t : Token} {items : List Symbol} {nodes : List Node} :
      t.name = g.tokenName n → g.Forest items nodes →
      g.Forest (.token n :: items) (.token t :: nodes)
  | term {r : Rule} {items : List Symbol} {children nodes : List Node} :
      r ∈ g.rules → g.Forest r.items children → g.Forest items nodes →
      g.Forest (.term r.owner :: items) (.reduction (g.termName r.owner) children :: nodes)

/-- The tree is a derivation tree of the term that the start rule begins with. -/
def AugmentedGrammar.DerivationTree (g : AugmentedGrammar) (x : Node) : Prop :=
  ∃ start rest, g.startRule.items = .term start :: rest ∧ g.grammar.Forest [.term start] [x]

namespace Grammar.Forest

variable {g : Grammar} {items : List Symbol} {nodes : List Node}

/-- The trees of a forest have the labels of its symbols. -/
theorem map_label (h : g.Forest items nodes) :
  nodes.map Node.label = items.map g.label
  := by
  induction h with
  | nil => rfl
  | prompt _ ih => simp [ih, Node.label, Grammar.label]
  | token ht _ ih => simp [ih, ht, Node.label, Grammar.label, Grammar.tokenName]
  | term _ _ _ _ ih => simp [ih, Node.label, Grammar.label, Grammar.termName]

/-- Two forests side by side are a forest. -/
theorem append {others : List Symbol} {trees : List Node} (h : g.Forest items nodes)
    (h' : g.Forest others trees) :
  g.Forest (items ++ others) (nodes ++ trees)
  := by
  induction h with
  | nil => apply h'
  | prompt _ ih => exact .prompt ih
  | token ht _ ih => exact .token ht ih
  | term hr hc _ _ ih => exact .term hr hc ih

/-- A single tree over a term is a reduction by one of its rules. -/
theorem term_iff {t : TermId} {x : Node} :
  g.Forest [.term t] [x] ↔
    ∃ r ∈ g.rules, r.owner = t ∧
      ∃ children, g.Forest r.items children ∧ x = .reduction (g.termName t) children
  := by
  constructor
  · rintro (_ | _ | _ | ⟨hr, hc, _⟩)
    exact ⟨_, hr, rfl, _, hc, rfl⟩
  · rintro ⟨r, hr, rfl, children, hc, rfl⟩
    exact .term hr hc .nil

/-- The names of the leaves of a forest are those of a derived sequence. -/
theorem derives (h : g.Forest items nodes) :
  ∃ w, Derives g.rules items w ∧ w.map g.tokenName = (Node.leavesOf nodes).map Token.name
  := by
  induction h with
  | nil => exact ⟨[], .nil, rfl⟩
  | prompt _ ih =>
    obtain ⟨w, hw, he⟩ := ih
    use w, .prompt hw, he
  | token ht _ ih =>
    obtain ⟨w, hw, he⟩ := ih
    refine ⟨_, .token hw, ?_⟩
    simp [Node.leavesOf, Node.leaves, ht, he]
  | term hr _ _ ihc ih =>
    obtain ⟨v, hv, hve⟩ := ihc
    obtain ⟨w, hw, hwe⟩ := ih
    use v ++ w, .term hr hv hw
    simp [Node.leavesOf, Node.leaves, hve, hwe]

/-- The tokens at the leaves of a forest can be exchanged for others with the same names. -/
theorem refill (h : g.Forest items nodes) {tokens : List Token}
    (ht : tokens.map Token.name = (Node.leavesOf nodes).map Token.name) :
  ∃ trees, g.Forest items trees ∧ Node.leavesOf trees = tokens ∧
    Node.outlines trees = Node.outlines nodes
  := by
  induction h generalizing tokens with
  | nil =>
    obtain rfl : tokens = [] := by simpa [Node.leavesOf] using ht
    exact ⟨[], .nil, rfl, rfl⟩
  | prompt _ ih =>
    obtain ⟨trees, hf, hl, ho⟩ := ih ht
    exact ⟨_, .prompt hf, hl, by rw [Node.outlines, Node.outlines, ho]⟩
  | token hn _ ih =>
    simp only [Node.leavesOf, Node.leaves, List.singleton_append, List.map_cons,
      List.map_eq_cons_iff] at ht
    obtain ⟨t, tokens, rfl, hname, ht⟩ := ht
    obtain ⟨trees, hf, rfl, ho⟩ := ih ht
    refine ⟨_, .token (hname.trans hn) hf, rfl, ?_⟩
    simp [Node.outlines, Node.outline, hname, ho]
  | term hr _ _ ihc ih =>
    simp only [Node.leavesOf, Node.leaves, List.map_append, List.map_eq_append_iff] at ht
    obtain ⟨before, after, rfl, hb, ha⟩ := ht
    obtain ⟨children, hc, rfl, hco⟩ := ihc hb
    obtain ⟨trees, hf, rfl, ho⟩ := ih ha
    refine ⟨_, .term hr hc hf, rfl, ?_⟩
    simp [Node.outlines, Node.outline, hco, ho]

end Grammar.Forest

/-- A derived sequence is that of the leaves of a forest, whatever tokens with its names are put
there. -/
theorem Derives.forest {g : Grammar} {items : List Symbol} {w : List TokenId}
    (h : Derives g.rules items w) {tokens : List Token}
    (ht : tokens.map Token.name = w.map g.tokenName) :
  ∃ nodes, g.Forest items nodes ∧ Node.leavesOf nodes = tokens
  := by
  induction h generalizing tokens with
  | nil =>
    obtain rfl : tokens = [] := by simpa using ht
    exact ⟨[], .nil, rfl⟩
  | prompt _ ih =>
    obtain ⟨nodes, hf, hl⟩ := ih ht
    exact ⟨_, .prompt hf, hl⟩
  | token _ ih =>
    simp only [List.map_cons, List.map_eq_cons_iff] at ht
    obtain ⟨t, tokens, rfl, hname, ht⟩ := ht
    obtain ⟨nodes, hf, rfl⟩ := ih ht
    exact ⟨_, .token hname hf, rfl⟩
  | term hr _ _ ihv ihw =>
    simp only [List.map_append, List.map_eq_append_iff] at ht
    obtain ⟨before, after, rfl, hb, ha⟩ := ht
    obtain ⟨children, hc, rfl⟩ := ihv hb
    obtain ⟨nodes, hf, rfl⟩ := ihw ha
    exact ⟨_, .term hr hc hf, rfl⟩

end CanonicalLR
