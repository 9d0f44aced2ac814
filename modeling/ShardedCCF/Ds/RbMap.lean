import Mathlib

/-! The persistent red-black map behind the key-value store when it is built
with `KV_STATE_RB`: insertion with rebalancing on the way up, lookup and ordered
traversal. A node is immutable once made (`shared_ptr<const Node>`), so a map is
a value and `put` shares what it does not rebuild. Removal is not implemented in
the source (it throws) and serialised sizes are left out. -/
namespace CCF.Rb
open List

inductive Color where
  | R
  | B
  deriving DecidableEq, Repr

/-- `shared_ptr<const Node>`: null, or a node with the size stored at its
construction. -/
inductive Map (K V : Type) where
  | empty
  | node (c : Color) (lft : Map K V) (key : K) (val : V) (rgt : Map K V) (totalSize : Nat)
  deriving DecidableEq, Repr

namespace Map
variable {K V S : Type}

def size : Map K V → Nat
  | empty => 0
  | node _ _ _ _ _ totalSize => totalSize

def make (c : Color) (lft : Map K V) (key : K) (val : V) (rgt : Map K V) : Map K V :=
  .node c lft key val rgt (1 + lft.size + rgt.size)

/-- The traversal: the visitor keeps a state of its own and stops it by
answering `false`. -/
def foreach (f : S → K → V → S × Bool) : Map K V → S → S × Bool
  | empty, s => (s, true)
  | node _ lft key val rgt _, s =>
    match lft.foreach f s with
    | (s, false) => (s, false)
    | (s, true) =>
      match f s key val with
      | (s, false) => (s, false)
      | (s, true) => rgt.foreach f s

/-- Called only when the parent is black. The four patterns are `doubledLeft`
and `doubledRight` of the left and of the right child, in this order. -/
def balance : Map K V → K → V → Map K V → Map K V
  | .node .R (.node .R a ak av b _) lk lv c _, x, v, rgt =>
    make .R (make .B a ak av b) lk lv (make .B c x v rgt)
  | .node .R a lk lv (.node .R b bk bv c _) _, x, v, rgt =>
    make .R (make .B a lk lv b) bk bv (make .B c x v rgt)
  | lft, x, v, .node .R (.node .R b bk bv c _) rk rv d _ =>
    make .R (make .B lft x v b) bk bv (make .B c rk rv d)
  | lft, x, v, .node .R b rk rv (.node .R c ck cv d _) _ =>
    make .R (make .B lft x v b) rk rv (make .B c ck cv d)
  | lft, x, v, rgt => make .B lft x v rgt

section Order
variable [LinearOrder K]

def getp (key : K) : Map K V → Option V
  | empty => none
  | node _ lft y yv rgt _ =>
    if key < y then lft.getp key
    else if y < key then rgt.getp key
    else some yv

def insert (x : K) (v : V) : Map K V → Map K V
  | empty => make .R empty x v empty
  | node .B lft y yv rgt _ =>
    if x < y then balance (lft.insert x v) y yv rgt
    else if y < x then balance lft y yv (rgt.insert x v)
    else make .B lft y v rgt
  | node .R lft y yv rgt _ =>
    if x < y then make .R (lft.insert x v) y yv rgt
    else if y < x then make .R lft y yv (rgt.insert x v)
    else make .R lft y v rgt

/-- The root is painted black; `insert` never gives the empty map
(`insert_ne_empty`), so the null root the source would dereference is not met. -/
def put (m : Map K V) (key : K) (value : V) : Map K V :=
  match m.insert key value with
  | empty => empty
  | node _ lft y yv rgt _ => make .B lft y yv rgt

end Order

/-! ## The pairs of a map -/

def entries : Map K V → List (K × V)
  | empty => []
  | node _ lft key val rgt _ => lft.entries ++ (key, val) :: rgt.entries

@[simp]
theorem entries_make (c : Color) (lft : Map K V) (key : K) (val : V) (rgt : Map K V) :
    (make c lft key val rgt).entries = lft.entries ++ (key, val) :: rgt.entries := rfl

def visit (f : S → K → V → S × Bool) : List (K × V) → S → S × Bool
  | [], s => (s, true)
  | (key, val) :: rest, s =>
    match f s key val with
    | (s, false) => (s, false)
    | (s, true) => visit f rest s

theorem visit_append (f : S → K → V → S × Bool) (front back : List (K × V)) (s : S) :
    visit f (front ++ back) s =
      match visit f front s with
      | (s, false) => (s, false)
      | (s, true) => visit f back s := by
  induction front generalizing s with
  | nil => rfl
  | cons pair front ih =>
    obtain ⟨key, val⟩ := pair
    rw [cons_append, visit, visit]
    rcases f s key val with ⟨s', _ | _⟩
    · rfl
    · exact ih s'

theorem foreach_eq_visit (f : S → K → V → S × Bool) (m : Map K V) (s : S) :
    m.foreach f s = visit f m.entries s := by
  induction m generalizing s with
  | empty => rfl
  | node c lft key val rgt totalSize left right =>
    rw [foreach, entries, visit_append, left]
    rcases visit f lft.entries s with ⟨s', _ | _⟩
    · rfl
    dsimp only
    rw [visit]
    rcases f s' key val with ⟨s'', _ | _⟩
    · rfl
    · exact right s''

/-- What an insertion below a node of a colour leaves of the node. -/
def join : Color → Map K V → K → V → Map K V → Map K V
  | .R => make .R
  | .B => balance

theorem entries_join (c : Color) (lft : Map K V) (x : K) (v : V) (rgt : Map K V) :
    (join c lft x v rgt).entries = lft.entries ++ (x, v) :: rgt.entries := by
  cases c with
  | R => rfl
  | B =>
    rw [join, balance.eq_def]
    split <;> simp [entries]

/-! ## Stored sizes -/

def Counted : Map K V → Prop
  | empty => True
  | node _ lft _ _ rgt totalSize => totalSize = 1 + lft.size + rgt.size ∧ lft.Counted ∧ rgt.Counted

theorem Counted.make {lft rgt : Map K V} (left : lft.Counted) (right : rgt.Counted) (c : Color) (key : K) (val : V) :
    (Map.make c lft key val rgt).Counted := ⟨rfl, left, right⟩

theorem Counted.size_eq {m : Map K V} (counted : m.Counted) : m.size = m.entries.length := by
  induction m with
  | empty => rfl
  | node c lft key val rgt totalSize left right =>
    obtain ⟨stored, counted, counted'⟩ := counted
    rw [size, stored, left counted, right counted', entries, length_append, length_cons]
    omega

theorem Counted.join {lft rgt : Map K V} (left : lft.Counted) (right : rgt.Counted) (c : Color) (x : K) (v : V) :
    (Map.join c lft x v rgt).Counted := by
  cases c with
  | R => exact left.make right ..
  | B =>
    rw [Map.join, balance.eq_def]
    split
    · obtain ⟨-, ⟨-, a, b⟩, c⟩ := left
      exact (a.make b ..).make (c.make right ..) ..
    · obtain ⟨-, a, -, b, c⟩ := left
      exact (a.make b ..).make (c.make right ..) ..
    · obtain ⟨-, ⟨-, b, c⟩, d⟩ := right
      exact (left.make b ..).make (c.make d ..) ..
    · obtain ⟨-, b, -, c, d⟩ := right
      exact (left.make b ..).make (c.make d ..) ..
    · exact left.make right ..

/-! ## Colours -/

def isRed : Map K V → Prop
  | empty => False
  | node c _ _ _ _ _ => c = .R

def NoRedRed : Map K V → Prop
  | empty => True
  | node c lft _ _ rgt _ => (c = .R → ¬ lft.isRed ∧ ¬ rgt.isRed) ∧ lft.NoRedRed ∧ rgt.NoRedRed

/-- What an insertion leaves: at most the root is red over a red child. -/
def NoRedRedBelow : Map K V → Prop
  | empty => True
  | node _ lft _ _ rgt _ => lft.NoRedRed ∧ rgt.NoRedRed

/-- Every path from the root to the empty map passes `n` black nodes. -/
def BlackHeight : Map K V → Nat → Prop
  | empty, n => n = 0
  | node .R lft _ _ rgt _, n => lft.BlackHeight n ∧ rgt.BlackHeight n
  | node .B lft _ _ rgt _, n => ∃ k, n = k + 1 ∧ lft.BlackHeight k ∧ rgt.BlackHeight k

theorem NoRedRed.below {m : Map K V} (fine : m.NoRedRed) : m.NoRedRedBelow := by
  cases m with
  | empty => trivial
  | node => exact fine.2

theorem NoRedRed.make_black {lft rgt : Map K V} (left : lft.NoRedRed) (right : rgt.NoRedRed) (key : K) (val : V) :
    (make .B lft key val rgt).NoRedRed :=
  ⟨nofun, left, right⟩

/-- A node that is neither doubled to the left nor to the right has no red pair
at its root. -/
theorem NoRedRedBelow.noRedRed {m : Map K V} (below : m.NoRedRedBelow)
    (left : ∀ a ak av b s lk lv c t, m ≠ .node .R (.node .R a ak av b s) lk lv c t)
    (right : ∀ a lk lv b bk bv c s t, m ≠ .node .R a lk lv (.node .R b bk bv c s) t) : m.NoRedRed := by
  cases m with
  | empty => trivial
  | node c lft key val rgt totalSize =>
    refine ⟨fun red => ?_, below⟩
    subst red
    constructor
    · intro red
      cases lft with
      | empty => exact red
      | node c a ak av b s =>
        cases (show c = .R from red)
        exact left _ _ _ _ _ _ _ _ _ rfl
    · intro red
      cases rgt with
      | empty => exact red
      | node c b bk bv d s =>
        cases (show c = .R from red)
        exact right _ _ _ _ _ _ _ _ _ rfl

/-- Rebalancing over one child that an insertion has been made in. -/
theorem balance_noRedRed {lft rgt : Map K V} (left : lft.NoRedRedBelow) (right : rgt.NoRedRedBelow)
    (one : lft.NoRedRed ∨ rgt.NoRedRed) (x : K) (v : V) : (balance lft x v rgt).NoRedRed := by
  have red_of_black (a b : Map K V) (ak : K) (av : V) (c d : Map K V) (ck : K) (cv : V) (key : K) (val : V)
      (fa : a.NoRedRed) (fb : b.NoRedRed) (fc : c.NoRedRed) (fd : d.NoRedRed) :
      (make .R (make .B a ak av b) key val (make .B c ck cv d)).NoRedRed := by
    refine ⟨fun _ => ?_, fa.make_black fb .., fc.make_black fd ..⟩
    simp [make, isRed]
  unfold balance
  split
  · obtain ⟨⟨-, a, b⟩, c⟩ := left
    have whole : rgt.NoRedRed := one.resolve_left fun ⟨black, _⟩ => (black rfl).1 rfl
    exact red_of_black _ _ _ _ _ _ _ _ _ _ a b c whole
  · obtain ⟨a, -, b, c⟩ := left
    have whole : rgt.NoRedRed := one.resolve_left fun ⟨black, _⟩ => (black rfl).2 rfl
    exact red_of_black _ _ _ _ _ _ _ _ _ _ a b c whole
  · obtain ⟨⟨-, b, c⟩, d⟩ := right
    have whole : lft.NoRedRed := one.resolve_right fun ⟨black, _⟩ => (black rfl).1 rfl
    exact red_of_black _ _ _ _ _ _ _ _ _ _ whole b c d
  · obtain ⟨b, -, c, d⟩ := right
    have whole : lft.NoRedRed := one.resolve_right fun ⟨black, _⟩ => (black rfl).2 rfl
    exact red_of_black _ _ _ _ _ _ _ _ _ _ whole b c d
  · rename_i leftLeft leftRight rightLeft rightRight
    exact (left.noRedRed leftLeft leftRight).make_black (right.noRedRed rightLeft rightRight) ..

theorem balance_blackHeight {lft rgt : Map K V} (left : lft.BlackHeight n) (right : rgt.BlackHeight n)
    (x : K) (v : V) : (balance lft x v rgt).BlackHeight (n + 1) := by
  unfold balance
  split
  · obtain ⟨⟨a, b⟩, c⟩ := left
    exact ⟨⟨n, rfl, a, b⟩, ⟨n, rfl, c, right⟩⟩
  · obtain ⟨a, b, c⟩ := left
    exact ⟨⟨n, rfl, a, b⟩, ⟨n, rfl, c, right⟩⟩
  · obtain ⟨⟨b, c⟩, d⟩ := right
    exact ⟨⟨n, rfl, left, b⟩, ⟨n, rfl, c, d⟩⟩
  · obtain ⟨b, c, d⟩ := right
    exact ⟨⟨n, rfl, left, b⟩, ⟨n, rfl, c, d⟩⟩
  · exact ⟨n, rfl, left, right⟩

/-! ## Order -/

section Order
variable [LinearOrder K]

/-- The binary search tree: keys to the left are smaller, keys to the right
greater, at every node. -/
def Ordered : Map K V → Prop
  | empty => True
  | node _ lft key _ rgt _ =>
    (∀ p ∈ lft.entries, p.1 < key) ∧ (∀ p ∈ rgt.entries, key < p.1) ∧ lft.Ordered ∧ rgt.Ordered

theorem ordered_iff (m : Map K V) : m.Ordered ↔ m.entries.Pairwise (·.1 < ·.1) := by
  induction m with
  | empty => simp [Ordered, entries]
  | node c lft key val rgt totalSize left right =>
    rw [Ordered, entries, left, right, pairwise_append, pairwise_cons]
    constructor
    · rintro ⟨smaller, greater, left, right⟩
      refine ⟨left, ⟨greater, right⟩, fun p inLeft q member => ?_⟩
      rcases mem_cons.mp member with rfl | inRight
      · exact smaller p inLeft
      · exact (smaller p inLeft).trans (greater q inRight)
    · rintro ⟨left, ⟨greater, right⟩, across⟩
      exact ⟨fun p member => across p member _ mem_cons_self, greater, left, right⟩

def insertPair (x : K) (v : V) : List (K × V) → List (K × V)
  | [] => [(x, v)]
  | (y, yv) :: rest =>
    if x < y then (x, v) :: (y, yv) :: rest
    else if y < x then (y, yv) :: insertPair x v rest
    else (y, v) :: rest

theorem mem_insertPair {pairs : List (K × V)} (sorted : pairs.Pairwise (·.1 < ·.1)) (x : K) (v : V) (p : K × V) :
    p ∈ insertPair x v pairs ↔ p = (x, v) ∨ p.1 ≠ x ∧ p ∈ pairs := by
  induction pairs with
  | nil => simp [insertPair]
  | cons pair rest ih =>
    obtain ⟨y, yv⟩ := pair
    rw [pairwise_cons] at sorted
    have above (q : K × V) (member : q ∈ rest) : y < q.1 := sorted.1 q member
    rcases lt_trichotomy x y with lt | rfl | gt
    · rw [insertPair, if_pos lt, mem_cons]
      refine or_congr_right ⟨fun member => ⟨?_, member⟩, And.right⟩
      rcases mem_cons.mp member with rfl | later
      · exact lt.ne'
      · exact (lt.trans (above p later)).ne'
    · rw [insertPair, if_neg (lt_irrefl x), if_neg (lt_irrefl x), mem_cons, mem_cons]
      refine or_congr_right ⟨fun member => ⟨(above p member).ne', .inr member⟩, ?_⟩
      rintro ⟨other, rfl | member⟩
      · exact absurd rfl other
      · exact member
    rw [insertPair, if_neg gt.not_gt, if_pos gt, mem_cons, mem_cons, ih sorted.2]
    constructor
    · rintro (rfl | rfl | ⟨other, member⟩)
      · exact .inr ⟨gt.ne, .inl rfl⟩
      · exact .inl rfl
      · exact .inr ⟨other, .inr member⟩
    · rintro (rfl | ⟨other, rfl | member⟩)
      · exact .inr (.inl rfl)
      · exact .inl rfl
      · exact .inr (.inr ⟨other, member⟩)

theorem sorted_insertPair {pairs : List (K × V)} (sorted : pairs.Pairwise (·.1 < ·.1)) (x : K) (v : V) :
    (insertPair x v pairs).Pairwise (·.1 < ·.1) := by
  induction pairs with
  | nil => simp [insertPair]
  | cons pair rest ih =>
    obtain ⟨y, yv⟩ := pair
    have sorted' := sorted
    rw [pairwise_cons] at sorted
    rw [insertPair]
    split_ifs with lt gt
    · refine pairwise_cons.mpr ⟨fun p member => ?_, sorted'⟩
      rcases mem_cons.mp member with rfl | later
      · exact lt
      · exact lt.trans (sorted.1 p later)
    · refine pairwise_cons.mpr ⟨fun p member => ?_, ih sorted.2⟩
      rcases (mem_insertPair sorted.2 x v p).mp member with rfl | ⟨-, member⟩
      · exact gt
      · exact sorted.1 p member
    · exact pairwise_cons.mpr sorted

theorem insertPair_left {front : List (K × V)} (lt : x < y) (v yv : V) (back : List (K × V)) :
    insertPair x v (front ++ (y, yv) :: back) = insertPair x v front ++ (y, yv) :: back := by
  induction front with
  | nil => simp [insertPair, lt]
  | cons pair front ih =>
    rw [cons_append, insertPair, insertPair]
    split_ifs
    · rfl
    · rw [ih, cons_append]
    · rfl

theorem insertPair_right {front : List (K × V)} (below : ∀ p ∈ front, p.1 < x) (v : V) (back : List (K × V)) :
    insertPair x v (front ++ back) = front ++ insertPair x v back := by
  induction front with
  | nil => rfl
  | cons pair front ih =>
    have smaller : pair.1 < x := below pair mem_cons_self
    rw [cons_append, insertPair, if_neg smaller.not_gt, if_pos smaller,
      ih fun p member => below p (mem_cons_of_mem pair member), cons_append]

theorem insert_node (c : Color) (lft : Map K V) (y : K) (yv : V) (rgt : Map K V) (totalSize : Nat) (x : K) (v : V) :
    (node c lft y yv rgt totalSize).insert x v =
      if x < y then join c (lft.insert x v) y yv rgt
      else if y < x then join c lft y yv (rgt.insert x v)
      else make c lft y v rgt := by
  cases c <;> rfl

/-- An insertion into the tree is an insertion into the list of its pairs,
wherever the rotations put them. -/
theorem entries_insert {m : Map K V} (ordered : m.Ordered) (x : K) (v : V) :
    (m.insert x v).entries = insertPair x v m.entries := by
  induction m with
  | empty => rfl
  | node c lft y yv rgt totalSize left right =>
    obtain ⟨smaller, -, orderedLeft, orderedRight⟩ := ordered
    rw [insert_node, entries]
    split_ifs with lt gt
    · rw [entries_join, left orderedLeft, insertPair_left lt]
    · rw [entries_join, right orderedRight, insertPair_right fun p member => (smaller p member).trans gt, insertPair,
        if_neg gt.not_gt, if_pos gt]
    · cases le_antisymm (not_lt.mp gt) (not_lt.mp lt)
      rw [entries_make, insertPair_right smaller, insertPair, if_neg lt, if_neg lt]

theorem getp_eq_some_iff {m : Map K V} (ordered : m.Ordered) (key : K) (val : V) :
    m.getp key = some val ↔ (key, val) ∈ m.entries := by
  induction m with
  | empty => simp [getp, entries]
  | node c lft y yv rgt totalSize left right =>
    obtain ⟨smaller, greater, orderedLeft, orderedRight⟩ := ordered
    rw [getp, entries, mem_append, mem_cons]
    split_ifs with lt gt
    · rw [left orderedLeft]
      refine ⟨.inl, fun member => ?_⟩
      rcases member with inLeft | equal | inRight
      · exact inLeft
      · cases equal
        exact absurd lt (lt_irrefl key)
      · exact absurd lt (greater _ inRight).not_gt
    · rw [right orderedRight]
      refine ⟨fun member => .inr (.inr member), fun member => ?_⟩
      rcases member with inLeft | equal | inRight
      · exact absurd gt (smaller _ inLeft).not_gt
      · cases equal
        exact absurd gt (lt_irrefl key)
      · exact inRight
    rw [Option.some.injEq]
    constructor
    · rintro rfl
      exact .inr (.inl (by rw [le_antisymm (not_lt.mp gt) (not_lt.mp lt)]))
    · rintro (inLeft | equal | inRight)
      · exact absurd (smaller _ inLeft) lt
      · cases equal
        rfl
      · exact absurd (greater _ inRight) gt

/-! ## Insertion keeps the tree red-black -/

theorem insert_ne_empty (m : Map K V) (x : K) (v : V) : m.insert x v ≠ empty := by
  intro gone
  have none : (m.insert x v).entries = [] := by rw [gone, entries]
  cases m with
  | empty => simp [insert] at none
  | node =>
    rw [insert_node] at none
    split_ifs at none <;> simp [entries_join] at none

theorem Counted.insert {m : Map K V} (counted : m.Counted) (x : K) (v : V) : (m.insert x v).Counted := by
  induction m with
  | empty => exact ⟨rfl, trivial, trivial⟩
  | node c lft y yv rgt totalSize left right =>
    obtain ⟨-, countedLeft, countedRight⟩ := counted
    rw [insert_node]
    split_ifs
    · exact (left countedLeft).join countedRight ..
    · exact countedLeft.join (right countedRight) ..
    · exact countedLeft.make countedRight ..

/-- Only an insertion under a red root can leave a red pair, and only at the
root. -/
theorem insert_noRedRed {m : Map K V} (fine : m.NoRedRed) (x : K) (v : V) :
    (m.insert x v).NoRedRedBelow ∧ (¬ m.isRed → (m.insert x v).NoRedRed ∨ m = empty) := by
  induction m with
  | empty => exact ⟨⟨trivial, trivial⟩, fun _ => .inr rfl⟩
  | node c lft y yv rgt totalSize left right =>
    obtain ⟨reds, fineLeft, fineRight⟩ := fine
    have whole {child : Map K V} (fineChild : child.NoRedRed) (black : ¬ child.isRed)
        (ih : (child.insert x v).NoRedRedBelow ∧
          (¬ child.isRed → (child.insert x v).NoRedRed ∨ child = empty)) : (child.insert x v).NoRedRed := by
      rcases ih.2 black with fine | rfl
      · exact fine
      · exact ⟨fun _ => ⟨id, id⟩, trivial, trivial⟩
    cases c with
    | R =>
      obtain ⟨blackLeft, blackRight⟩ := reds rfl
      refine ⟨?_, fun black => absurd rfl black⟩
      rw [insert]
      split_ifs
      · exact ⟨whole fineLeft blackLeft (left fineLeft), fineRight⟩
      · exact ⟨fineLeft, whole fineRight blackRight (right fineRight)⟩
      · exact ⟨fineLeft, fineRight⟩
    | B =>
      have fine : ((node .B lft y yv rgt totalSize).insert x v).NoRedRed := by
        rw [insert]
        split_ifs
        · exact balance_noRedRed (left fineLeft).1 fineRight.below (.inr fineRight) ..
        · exact balance_noRedRed fineLeft.below (right fineRight).1 (.inl fineLeft) ..
        · exact fineLeft.make_black fineRight ..
      exact ⟨fine.below, fun _ => .inl fine⟩

theorem insert_blackHeight {m : Map K V} (even : m.BlackHeight n) (x : K) (v : V) :
    (m.insert x v).BlackHeight n := by
  induction m generalizing n with
  | empty => exact ⟨even, even⟩
  | node c lft y yv rgt totalSize left right =>
    cases c with
    | R =>
      obtain ⟨evenLeft, evenRight⟩ := even
      rw [insert]
      split_ifs
      · exact ⟨left evenLeft, evenRight⟩
      · exact ⟨evenLeft, right evenRight⟩
      · exact ⟨evenLeft, evenRight⟩
    | B =>
      obtain ⟨k, rfl, evenLeft, evenRight⟩ := even
      rw [insert]
      split_ifs
      · exact balance_blackHeight (left evenLeft) evenRight ..
      · exact balance_blackHeight evenLeft (right evenRight) ..
      · exact ⟨k, rfl, evenLeft, evenRight⟩

/-- The conditions of a red-black search tree with the sizes stored in it. -/
structure RedBlack (m : Map K V) : Prop where
  ordered : m.Ordered
  blackRoot : ¬ m.isRed
  noRedRed : m.NoRedRed
  blackHeight : ∃ n, m.BlackHeight n
  counted : m.Counted

theorem redBlack_empty : (empty : Map K V).RedBlack :=
  ⟨trivial, id, trivial, ⟨0, rfl⟩, trivial⟩

theorem entries_put (m : Map K V) (key : K) (value : V) :
    (m.put key value).entries = (m.insert key value).entries := by
  rw [put]
  split
  · rename_i gone
    exact absurd gone (m.insert_ne_empty key value)
  rename_i same
  rw [same]
  rfl

theorem RedBlack.put {m : Map K V} (fine : m.RedBlack) (key : K) (value : V) : (m.put key value).RedBlack := by
  have sorted : (m.put key value).entries.Pairwise (·.1 < ·.1) := by
    rw [entries_put, entries_insert fine.ordered]
    exact sorted_insertPair ((ordered_iff m).mp fine.ordered) key value
  have ordered := (ordered_iff _).mpr sorted
  obtain ⟨n, even⟩ := fine.blackHeight
  have even := insert_blackHeight even key value
  have below := (insert_noRedRed fine.noRedRed key value).1
  have counted := fine.counted.insert key value
  rw [Map.put] at ordered ⊢
  split at ordered
  · rename_i gone
    exact absurd gone (m.insert_ne_empty key value)
  rename_i c lft y yv rgt totalSize same
  rw [same] at even below counted
  refine ⟨ordered, by simp [make, isRed], below.1.make_black below.2 .., ?_, counted.2.1.make counted.2.2 ..⟩
  cases c with
  | R => exact ⟨n + 1, n, rfl, even⟩
  | B => exact ⟨n, even⟩

theorem mem_entries_put {m : Map K V} (fine : m.RedBlack) (key : K) (value : V) (p : K × V) :
    p ∈ (m.put key value).entries ↔ p = (key, value) ∨ p.1 ≠ key ∧ p ∈ m.entries := by
  rw [entries_put, entries_insert fine.ordered]
  exact mem_insertPair ((ordered_iff m).mp fine.ordered) key value p

/-! ## Versions -/

def lastPut (puts : List (K × V)) (key : K) : Option V :=
  (puts.reverse.find? fun p => p.1 = key).map Prod.snd

structure Holds (m : Map K V) (puts : List (K × V)) : Prop where
  redBlack : m.RedBlack
  get_eq : ∀ key, m.getp key = lastPut puts key
  size_eq : m.size = (puts.map Prod.fst).toFinset.card
  entries_sorted : m.entries.Pairwise (·.1 < ·.1)
  mem_entries : ∀ key val, (key, val) ∈ m.entries ↔ lastPut puts key = some val
  foreach_eq : ∀ (S : Type) (f : S → K → V → S × Bool) (s : S), m.foreach f s = visit f m.entries s

theorem lastPut_append (puts : List (K × V)) (key : K) (value : V) (key' : K) :
    lastPut (puts ++ [(key, value)]) key' = if key = key' then some value else lastPut puts key' := by
  rw [lastPut, reverse_append, reverse_singleton, singleton_append, find?_cons]
  by_cases same : key = key'
  · simp [same]
  · simp [same, lastPut]

theorem lastPut_isSome_iff (puts : List (K × V)) (key : K) :
    (lastPut puts key).isSome ↔ key ∈ puts.map Prod.fst := by
  simp [lastPut]

theorem card_keys {pairs : List (K × V)} (sorted : pairs.Pairwise (·.1 < ·.1)) :
    (pairs.map Prod.fst).toFinset.card = pairs.length := by
  have distinct : (pairs.map Prod.fst).Nodup := by
    rw [nodup_iff_pairwise_ne, pairwise_map]
    exact sorted.imp fun lt => lt.ne
  rw [toFinset_card_of_nodup distinct, length_map]

theorem Holds.of_entries {m : Map K V} (fine : m.RedBlack)
    (same : ∀ key val, (key, val) ∈ m.entries ↔ lastPut puts key = some val) : m.Holds puts := by
  have sorted := (ordered_iff m).mp fine.ordered
  have keys : (m.entries.map Prod.fst).toFinset = (puts.map Prod.fst).toFinset := by
    ext key
    rw [List.mem_toFinset, List.mem_toFinset, List.mem_map, ← lastPut_isSome_iff, Option.isSome_iff_exists]
    constructor
    · rintro ⟨⟨key, val⟩, member, rfl⟩
      exact ⟨val, (same key val).mp member⟩
    · rintro ⟨val, put⟩
      exact ⟨(key, val), (same key val).mpr put, rfl⟩
  refine ⟨fine, fun key => ?_, ?_, sorted, same, fun S f s => foreach_eq_visit f m s⟩
  · apply Option.ext
    intro val
    rw [← same]
    exact getp_eq_some_iff fine.ordered key val
  · rw [← keys, card_keys sorted]
    exact fine.counted.size_eq

theorem holds_empty : (empty : Map K V).Holds [] :=
  .of_entries redBlack_empty fun key val => by simp [entries, lastPut]

theorem Holds.put {m : Map K V} (holds : m.Holds puts) (key : K) (value : V) :
    (m.put key value).Holds (puts ++ [(key, value)]) := by
  refine .of_entries (holds.redBlack.put key value) fun key' val => ?_
  rw [mem_entries_put holds.redBlack, lastPut_append, holds.mem_entries]
  split_ifs with same
  · subst same
    simp [eq_comm]
  · simp [Ne.symm same]

/-- The versions of a map its users hold, each with the puts that led to it.
A put is made on any of them and adds a version. -/
def putOn (held : List (List (K × V) × Map K V)) : Nat × K × V → List (List (K × V) × Map K V)
  | (i, key, value) =>
    match held[i]? with
    | none => held
    | some (puts, m) => held ++ [(puts ++ [(key, value)], m.put key value)]

def versions (ops : List (Nat × K × V)) : List (List (K × V) × Map K V) :=
  ops.foldl putOn [([], empty)]

theorem putOn_extends (held : List (List (K × V) × Map K V)) (op : Nat × K × V) : held <+: putOn held op := by
  obtain ⟨i, key, value⟩ := op
  rw [putOn]
  split
  · exact prefix_rfl
  · exact prefix_append ..

theorem foldl_putOn_extends (ops : List (Nat × K × V)) (held : List (List (K × V) × Map K V)) :
    held <+: ops.foldl putOn held := by
  induction ops generalizing held with
  | nil => exact prefix_rfl
  | cons op ops ih => exact (putOn_extends held op).trans (ih _)

theorem putOn_holds {held : List (List (K × V) × Map K V)} (each : ∀ h ∈ held, h.2.Holds h.1) (op : Nat × K × V) :
    ∀ h ∈ putOn held op, h.2.Holds h.1 := by
  obtain ⟨i, key, value⟩ := op
  intro h member
  rw [putOn] at member
  split at member
  · exact each h member
  rename_i puts m found
  rcases mem_append.mp member with old | new
  · exact each h old
  · cases mem_singleton.mp new
    exact (each _ (mem_of_getElem? found)).put key value

theorem versions_hold (ops : List (Nat × K × V)) : ∀ h ∈ versions ops, h.2.Holds h.1 := by
  induction ops using reverseRecOn with
  | nil =>
    intro h member
    cases mem_singleton.mp member
    exact holds_empty
  | append_singleton ops op ih =>
    rw [versions, foldl_append]
    exact putOn_holds ih op

/-- Red-black maps are correct: after any puts on any versions, every version
still held is the red-black search tree of its own puts, and no later put
changes it. -/
theorem versions_correct (ops later : List (Nat × K × V)) :
    (∀ h ∈ versions ops, h.2.Holds h.1) ∧
      ∀ (i : Nat) (h), (versions ops)[i]? = some h → (versions (ops ++ later))[i]? = some h := by
  refine ⟨versions_hold ops, fun i h held => ?_⟩
  obtain ⟨added, equal⟩ := foldl_putOn_extends later (versions ops)
  rw [versions, foldl_append]
  show (List.foldl putOn (versions ops) later)[i]? = some h
  rw [← equal]
  have within := (List.getElem?_eq_some_iff.mp held).1
  rw [getElem?_append_left within]
  exact held
end Order
end Map
end CCF.Rb
