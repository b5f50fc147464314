import CanonicalLR.Proofs.Parse.Caps
import CanonicalLR.Proofs.Parse.Traversal

/-!
# What becomes of the tokens

An engine with any parser definition, also with one that is wrong, keeps an account of the tokens it
was offered: each of them is a leaf of the trees on the stack, or there is one complaint that names it
(`Engine.Disposes`).  Reductions change neither the leaves nor the complaints, and all that they build
is made by productions of the definition (`Node.Conforms`).

So a tree that is the result of reading an input has the tokens of the input for its leaves, and
all of it is made by productions (`Engine.exists_account`).
-/

namespace CanonicalLR

/-! ### Trees made by productions -/

namespace Node

/-- Each reduction of the tree is by a production of the definition: the nodes below it have the kinds
and the names of the right side. -/
inductive Conforms {σ ρ : Type} (d : Definition σ ρ) : Node → Prop where
  | token (t : Token) : Conforms d (.token t)
  | prompt (name : String) : Conforms d (.prompt name)
  | reduction (rule : ρ) {children : List Node} :
      children.map label = (d.production rule).right → (∀ x ∈ children, Conforms d x) →
      Conforms d (.reduction (d.production rule).left children)

end Node

/-! ### Complaints that name a token -/

/-- The complaint is about the token, and its wording has the token in it. -/
def Complaint.Names (c : Complaint) (t : Token) : Prop :=
  c.token? = some t ∧ ∃ before after, c.message = before ++ describe t ++ after

theorem Complaint.names_of_token? {c : Complaint} {t : Token} (h : c.token? = some t) :
  c.Names t
  := by
  use h
  cases c with
  | unexpectedToken t' expected =>
    cases h
    use "unexpected ", listExpected expected
    rfl
  | refusedToken t' message =>
    cases h
    use message ++ " (at ", ")"
    rfl
  | afterAcceptance t' =>
    cases h
    use "unexpected ", " after the input was accepted"
    rfl
  | unexpectedEnd | refusedEnd => cases h

namespace Engine

variable {σ ρ : Type} {d : Definition σ ρ} {e e₁ e' : Engine σ} {lookahead : Option Token}
  {t : Token} {tokens : List Token} {cap : Nat}

/-! ### Reductions -/

/-- The leaves of the trees on the stack, from left to right. -/
def leaves (e : Engine σ) : List Token :=
  Node.leavesOf e.nodes.reverse

/-- All trees on the stack are made by productions. -/
def Conforms (d : Definition σ ρ) (e : Engine σ) : Prop :=
  ∀ x ∈ e.nodes, x.Conforms d

/-- Arranged nodes have the labels of the right side and the leaves of the nodes from the stack, and
but for the prompts they are those nodes. -/
theorem of_arrange {production : Production} {right : List Label} {taken children : List Node}
    (hlength : taken.length = right.countP Label.isBasic)
    (h : arrange (σ := σ) production right taken = .ok children) :
  children.map Node.label = right ∧ Node.leavesOf children = Node.leavesOf taken ∧
    ∀ x ∈ children, x ∈ taken ∨ ∃ name, x = .prompt name
  := by
  induction right generalizing taken children with
  | nil =>
    obtain rfl : taken = [] := List.length_eq_zero_iff.mp hlength
    cases h
    use rfl, rfl
    rintro x ⟨⟩
  | cons l right ih =>
    rw [arrange.eq_def] at h
    simp only at h
    by_cases hl : l.kind = .prompt
    · rw [if_pos hl] at h
      obtain ⟨rest, hrest, rfl⟩ := Grammar.exists_of_map_eq_ok h
      rw [List.countP_cons_of_neg (by simp [Label.isBasic, hl])] at hlength
      obtain ⟨hlabels, hleaves, hmem⟩ := ih hlength hrest
      refine ⟨?_, hleaves, ?_⟩
      · rw [List.map_cons, hlabels, Node.label, ← hl]
      · rw [List.forall_mem_cons]
        use .inr ⟨_, rfl⟩, hmem
    · rw [if_neg hl] at h
      rw [List.countP_cons_of_pos (by simp [Label.isBasic, hl])] at hlength
      cases taken with
      | nil => cases hlength
      | cons x taken =>
        simp only at h
        split at h
        · next hx =>
          obtain ⟨rest, hrest, rfl⟩ := Grammar.exists_of_map_eq_ok h
          obtain ⟨hlabels, hleaves, hmem⟩ := ih (Nat.succ_injective hlength) hrest
          refine ⟨?_, ?_, ?_⟩
          · rw [List.map_cons, hlabels, hx]
          · rw [Node.leavesOf, Node.leavesOf, hleaves]
          · rw [List.forall_mem_cons]
            use .inl (List.mem_cons_self ..)
            intro y hy
            apply (hmem y hy).imp_left (List.mem_cons_of_mem x)
        · cases h

/-- The trees on the stack that a reduction leaves. -/
theorem Reduces.exists_nodes (h : e.Reduces d lookahead e') :
  ∃ rule children, e.arrangement d rule = .ok children ∧ e.Supports d rule ∧
    e'.nodes = .reduction (d.production rule).left children ::
      e.nodes.drop (d.production rule).arity
  := by
  have hturned := turned_advance d e lookahead
  rw [h.1, h.2] at hturned
  cases hturned with
  | @reduce current exposed target rule children _ _ hsupports harrange =>
    use rule, children, harrange, hsupports
    rfl

/-- The nodes that a reduction takes from the stack are as many as the right side has places for
them. -/
theorem length_taken {rule : ρ} (h : e.Supports d rule) :
  (e.nodes.take (d.production rule).arity).reverse.length =
    (d.production rule).right.countP Label.isBasic
  := by
  rw [List.length_reverse, List.length_take, Nat.min_eq_left h.1, Production.arity]

/-- A reduction leaves the leaves as they are. -/
theorem Reduces.leaves_eq (h : e.Reduces d lookahead e') :
  e'.leaves = e.leaves
  := by
  obtain ⟨rule, children, harrange, hsupports, hnodes⟩ := h.exists_nodes
  obtain ⟨-, hleaves, -⟩ := of_arrange (length_taken hsupports) harrange
  rw [leaves, leaves, hnodes, List.reverse_cons, Node.leavesOf_append]
  conv_rhs =>
    rw [← List.take_append_drop (d.production rule).arity e.nodes, List.reverse_append,
      Node.leavesOf_append, ← hleaves]
  rw [Node.leavesOf, Node.leavesOf, Node.leaves, List.append_nil]

/-- A reduction is by a production. -/
theorem Reduces.conforms (h : e.Reduces d lookahead e') (he : e.Conforms d) :
  e'.Conforms d
  := by
  obtain ⟨rule, children, harrange, hsupports, hnodes⟩ := h.exists_nodes
  obtain ⟨hlabels, -, hmem⟩ := of_arrange (length_taken hsupports) harrange
  rw [Conforms, hnodes, List.forall_mem_cons]
  constructor
  · apply Node.Conforms.reduction rule hlabels
    intro x hx
    rcases hmem x hx with htaken | ⟨name, rfl⟩
    · apply he x
      rw [List.mem_reverse] at htaken
      apply List.mem_of_mem_take htaken
    · apply Node.Conforms.prompt
  · intro x hx
    apply he x (List.mem_of_mem_drop hx)

/-- Reductions leave the leaves as they are, and they are by productions. -/
theorem of_reductions (h : Relation.ReflTransGen (Reduces d lookahead) e e') :
  e'.leaves = e.leaves ∧ (e.Conforms d → e'.Conforms d)
  := by
  induction h with
  | refl => use rfl, id
  | tail _ hreduces ih =>
    use hreduces.leaves_eq.trans ih.1
    intro he
    apply hreduces.conforms (ih.2 he)

/-! ### One offer -/

/-- The token becomes the last leaf, or there is one complaint, which names it. -/
inductive Disposes (e : Engine σ) (t : Token) (e' : Engine σ) : Option Complaint → Prop where
  | shift : e'.complaints = e.complaints → e'.leaves = e.leaves ++ [t] → Disposes e t e' none
  | complain {c : Complaint} :
      c.Names t → e'.complaints = e.complaints ++ [c] → e'.leaves = e.leaves →
      Disposes e t e' (some c)

/-- When a token is dealt with, it becomes the last leaf, or there is one complaint about it. -/
theorem Settles.exists_disposes (h : e.Settles (some t) e') :
  ∃ c?, e.Disposes t e' c?
  := by
  cases h with
  | shift => exact ⟨none, .shift rfl (by simp [leaves, Node.leavesOf, Node.leaves])⟩
  | complain hc => exact ⟨_, .complain (Complaint.names_of_token? hc) rfl rfl⟩
  | complainAccepted => exact ⟨_, .complain (Complaint.names_of_token? rfl) rfl rfl⟩

theorem Settles.conforms (h : e.Settles lookahead e') (he : e.Conforms d) :
  e'.Conforms d
  := by
  cases h with
  | shift =>
    rw [Conforms, List.forall_mem_cons]
    use .token _, he
  | complain | complainAccepted | accept | complainAtEnd => apply he

/-- Only with a complaint about a token, an engine accepts before the end of the input. -/
theorem Settles.complaints_ne_nil (h : e.Settles (some t) e') (he : e.status = .running)
    (haccepted : e'.status = .accepted) :
  e'.complaints ≠ []
  := by
  cases h with
  | shift => rw [he] at haccepted; cases haccepted
  | complain | complainAccepted => simp [Engine.complain]

/-- Without a fault, the token that is offered to an engine that has not stopped becomes the last leaf,
or there is one complaint, which names it. -/
theorem exists_disposes_offer (he : e.status ≠ .stopped) (h : (e.offer d t).outcome = .ok ()) :
  ∃ c?, e.Disposes t (e.offer d t).engine c?
  := by
  cases hstatus : e.status with
  | running =>
    rw [offer, hstatus, drive] at h ⊢
    rcases driveFor_cases d e (some t) _ with ⟨e₁, hreductions, h₁, hsettles, -⟩ | ⟨-, _, hfault⟩
    · obtain ⟨hleaves, -⟩ := of_reductions hreductions
      obtain ⟨c?, hdisposes⟩ := hsettles.exists_disposes
      use c?
      cases hdisposes with
      | shift hc hl => exact .shift (by rw [hc, h₁.complaints_eq]) (by rw [hl, hleaves])
      | complain hn hc hl => exact .complain hn (by rw [hc, h₁.complaints_eq]) (by rw [hl, hleaves])
    · rw [hfault] at h
      cases h
  | accepted =>
    rw [offer_of_accepted hstatus]
    exact ⟨_, .complain (Complaint.names_of_token? rfl) rfl rfl⟩
  | stopped => apply absurd hstatus he

/-- The trees on the stack are made by productions, and an engine that has accepted has complained. -/
structure Regular (d : Definition σ ρ) (e : Engine σ) : Prop where
  conforms : e.Conforms d
  complaints_ne_nil : e.status = .accepted → e.complaints ≠ []

theorem regular_new (d : Definition σ ρ) (cap : Nat) :
  (Engine.new d cap).Regular d
  := by
  constructor
  · rintro x ⟨⟩
  · rintro ⟨⟩

/-- Offers without a fault keep the trees on the stack made by productions. -/
theorem Regular.offer (he : e.Regular d) (h : (e.offer d t).outcome = .ok ()) :
  (e.offer d t).engine.Regular d
  := by
  cases hstatus : e.status with
  | running =>
    rw [Engine.offer, hstatus, drive] at h ⊢
    rcases driveFor_cases d e (some t) _ with ⟨e₁, hreductions, h₁, hsettles, -⟩ | ⟨-, _, hfault⟩
    · use hsettles.conforms ((of_reductions hreductions).2 he.conforms)
      apply hsettles.complaints_ne_nil
      rw [h₁.status_eq, hstatus]
    · rw [hfault] at h
      cases h
  | accepted =>
    rw [offer_of_accepted hstatus]
    use he.conforms
    intro _
    simp [complain]
  | stopped =>
    rw [offer_of_stopped hstatus]
    exact he

/-! ### Accounts -/

/-- An account of offered tokens, each with the complaint that names it, if it is no leaf. -/
abbrev Account :=
  List (Token × Option Complaint)

/-- The tokens of an account that became leaves. -/
def Account.shifted (account : Account) : List Token :=
  (account.filter (·.2.isNone)).map Prod.fst

/-- The complaints of an account. -/
def Account.complaints (account : Account) : List Complaint :=
  account.filterMap Prod.snd

/-- The account is of the tokens and has a complaint only beside the token that it names. -/
structure Account.IsOf (account : Account) (tokens : List Token) : Prop where
  map_fst : account.map Prod.fst = tokens
  names : ∀ t c, (t, some c) ∈ account → c.Names t

/-- Without a fault, each token that is offered before the engine has stopped becomes a leaf, or there is
one complaint, which names it. -/
theorem exists_account_from (h : e.Faultless d tokens) :
  ∃ account : Account, account.IsOf (e.heard d tokens) ∧
    (e.offerEach d tokens).complaints = e.complaints ++ account.complaints ∧
    (e.offerEach d tokens).leaves = e.leaves ++ account.shifted
  := by
  induction tokens generalizing e with
  | nil =>
    use [], ⟨rfl, nofun⟩
    simp [Account.complaints, Account.shifted]
  | cons t tokens ih =>
    by_cases hstopped : e.status = .stopped
    · use []
      rw [heard, if_pos (isStopped_iff.mpr hstopped), offerEach_of_stopped hstopped]
      use ⟨rfl, nofun⟩
      simp [Account.complaints, Account.shifted]
    · obtain ⟨account, hof, hcomplaints, hleaves⟩ := ih h.2
      obtain ⟨c?, hdisposes⟩ := exists_disposes_offer hstopped h.1
      use (t, c?) :: account
      rw [heard, if_neg (by rwa [isStopped_iff]), offerEach_cons, hcomplaints, hleaves]
      constructor
      · constructor
        · rw [List.map_cons, hof.map_fst]
        · intro t' c hmem
          rcases List.mem_cons.mp hmem with heq | hmem
          · cases heq
            cases hdisposes with
            | complain hnames => exact hnames
          · apply hof.names t' c hmem
      · cases hdisposes with
        | shift hc hl => simp [hc, hl, Account.complaints, Account.shifted]
        | complain _ hc hl => simp [hc, hl, Account.complaints, Account.shifted]

theorem Regular.offerEach (he : e.Regular d) (h : e.Faultless d tokens) :
  (e.offerEach d tokens).Regular d
  := by
  induction tokens generalizing e with
  | nil => exact he
  | cons t tokens ih => apply ih (he.offer h.1) h.2

/-- All tokens are heard by an engine that has not stopped in the end. -/
theorem heard_eq (h : (e.offerEach d tokens).status ≠ .stopped) :
  e.heard d tokens = tokens
  := by
  induction tokens generalizing e with
  | nil => rfl
  | cons t tokens ih =>
    have hstopped : e.status ≠ .stopped := by
      intro hstopped
      rw [offerEach_of_stopped hstopped] at h
      exact h hstopped
    rw [heard, if_neg (by rwa [isStopped_iff]), ih h]

/-- Where there is no complaint, all tokens of the account are leaves. -/
theorem Account.IsOf.shifted_eq {account : Account} (h : account.IsOf tokens)
    (hnone : account.complaints = []) :
  account.shifted = tokens
  := by
  rw [Account.complaints, List.filterMap_eq_nil_iff] at hnone
  rw [Account.shifted, List.filter_eq_self.mpr, h.map_fst]
  intro entry hentry
  rw [hnone entry hentry]
  rfl

/-- If there is a tree at the end, then there was no complaint, all leaves are its own, and it is made
by productions. -/
theorem of_tree_finish {result : ParseResult} {x : Node} (he : e.Regular d)
    (h : (e.finish d).outcome = .ok result) (hx : result.tree = some x) :
  e.status = .running ∧ e.complaints = [] ∧ x.leaves = e.leaves ∧ x.Conforms d
  := by
  obtain ⟨hcomplaints, htree⟩ := of_outcome_finish h
  obtain ⟨haccepted, hnone, hhead⟩ := htree x hx
  rw [hcomplaints] at hnone
  have haccepted : (e.offerEnd d).engine.status = .accepted := of_decide_eq_true haccepted
  cases hstatus : e.status with
  | running =>
    obtain ⟨_, hend, -⟩ := Grammar.exists_of_map_eq_ok h
    rw [offerEnd, hstatus, drive] at hend hnone hhead
    rcases driveFor_cases d e none _ with ⟨e₁, hreductions, h₁, hsettles, -⟩ | ⟨-, _, hfault⟩
    · obtain ⟨hleaves, hconforms⟩ := of_reductions hreductions
      generalize (e.driveFor d none _).engine = e' at hsettles hnone hhead
      cases hsettles with
      | accept hnodes =>
        change e₁.nodes.head? = some x at hhead
        obtain rfl : _ = x := by simpa [hnodes] using hhead
        refine ⟨rfl, ?_, ?_, ?_⟩
        · rw [← h₁.complaints_eq]
          exact hnone
        · rw [← hleaves, leaves, hnodes]
          simp [Node.leavesOf]
        · apply hconforms he.conforms
          simp [hnodes]
      | complainAtEnd => simp [complainAtEnd, complain] at hnone
    · rw [hfault] at hend
      cases hend
  | accepted =>
    have hend : (e.offerEnd d).engine = e := by rw [offerEnd, hstatus]
    rw [hend] at hnone
    apply absurd hnone (he.complaints_ne_nil hstatus)
  | stopped =>
    have hend : (e.offerEnd d).engine = e := by rw [offerEnd, hstatus]
    rw [hend, hstatus] at haccepted
    cases haccepted

/-- By any parser definition, as long as there is no fault, each token that is offered before the engine
has stopped becomes a leaf, or there is one complaint, which names it; the leaves and the complaints
are in the order of the tokens, and there are no others.  A tree that is the result, of an engine or of
reading the whole input at once, has all tokens of the input for its leaves and is made by
productions. -/
theorem exists_account (d : Definition σ ρ) (cap : Nat) (tokens : List Token) :
  ((Engine.new d cap).Faultless d tokens →
    ∃ account : Account, account.IsOf ((Engine.new d cap).heard d tokens) ∧
      ((Engine.new d cap).offerEach d tokens).complaints = account.complaints ∧
      ((Engine.new d cap).offerEach d tokens).leaves = account.shifted) ∧
  ∀ result x,
    (Engine.new d cap).Faultless d tokens ∧
        (((Engine.new d cap).offerEach d tokens).finish d).outcome = .ok result ∨
      (d.parse tokens cap).outcome = .ok result →
    result.tree = some x → x.tokens = tokens ∧ x.Conforms d
  := by
  use exists_account_from
  intro result x hresult hx
  have hfinish : (Engine.new d cap).Faultless d tokens ∧
      (((Engine.new d cap).offerEach d tokens).finish d).outcome = .ok result := by
    rcases hresult with hfinish | hparse
    · exact hfinish
    · rw [outcome_parse, readAll_eq_ok_iff] at hparse
      exact hparse
  obtain ⟨h, hfinish⟩ := hfinish
  obtain ⟨account, hof, hcomplaints, hleaves⟩ := exists_account_from h
  obtain ⟨hrunning, hnone, hl, hconforms⟩ :=
    of_tree_finish ((regular_new d cap).offerEach h) hfinish hx
  rw [heard_eq (by rw [hrunning]; nofun)] at hof
  use ?_, hconforms
  rw [Node.tokens_eq_leaves, hl, hleaves]
  apply hof.shifted_eq
  rw [← hnone, hcomplaints]
  rfl

/-- The definition of a parser that reads a single number, written down by hand. -/
def number : Definition Nat Nat :=
  .ofTables
    { initial := 0
      actions := [((0, some "n"), .shift 1), ((1, none), .reduce 0), ((2, none), .accept)]
      gotos := [((0, 0), 2)]
      productions := [⟨"S", [⟨.token, "n"⟩, ⟨.prompt, "p"⟩]⟩]
      expected := [(0, ["n"])] }

/-- Of two numbers, one is a leaf and one is named in a complaint; a number alone is read, and what is
built is the tree over it. -/
theorem exists_account_number :
  (∃ account : Account, account.IsOf [⟨"n", "1", .unknown⟩, ⟨"n", "2", .unknown⟩] ∧
    account.shifted = [⟨"n", "1", .unknown⟩] ∧
    account.complaints = [.unexpectedToken ⟨"n", "2", .unknown⟩ []]) ∧
  ∃ x, (number.parse [⟨"n", "1", .unknown⟩] 0).outcome = .ok ⟨some x, []⟩ ∧
    x.tokens = [⟨"n", "1", .unknown⟩] ∧ x.Conforms number
  := by
  constructor
  · have hfaultless : (Engine.new number 0).Faultless number
        [⟨"n", "1", .unknown⟩, ⟨"n", "2", .unknown⟩] :=
      ⟨by decide +kernel, by decide +kernel, trivial⟩
    obtain ⟨account, hof, hcomplaints, hleaves⟩ := (exists_account number 0 _).1 hfaultless
    use account, hof
    rw [← hcomplaints, ← hleaves]
    decide +kernel
  · have hrun : (number.parse [⟨"n", "1", .unknown⟩] 0).outcome =
        .ok ⟨some (.reduction "S" [.token ⟨"n", "1", .unknown⟩, .prompt "p"]), []⟩ := by
      decide +kernel
    exact ⟨_, hrun, (exists_account number 0 _).2 _ _ (.inr hrun) rfl⟩

end Engine

end CanonicalLR
