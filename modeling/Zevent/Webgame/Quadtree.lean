/-
# The quadtree of a scene (`webgame/wgserver/quadtree/quadtree.c`)

A node has a box, a list of objects and, once something was to be put below it, four
subnodes whose boxes overlap.  An object is put into the deepest node, down to a given depth,
whose box strictly contains the object's box, and is moved there again when it moves.  A
search walks the nodes whose boxes meet the search box, gathers the non-empty lists of at
most 1000 of them, and then reports objects from these lists up to a given number.

Coordinates are rational numbers.  An object is the address of its `quadtree_object_t`; what is
stored there is in the table `live` of the state.

* `Placed` and `Nested` are the two halves of the invariant: where objects are, and how boxes
  lie in each other.  `QuadState.Inv` adds that the lists hold the live objects, each once.
* `searchNodes_eq_take` takes the cut-off apart from the walk, so that completeness of the
  search is a counting argument (`search_complete`).
* `quadtree_search_complete` is the result over every run of inserts, updates and deletes.
-/
import Mathlib.Tactic
import Zevent.Lib.Interleaving

namespace Zevent.Webgame

open Interleaving

/-! ## Boxes -/

/-- `quadbox_t`. -/
structure Box where
  xmin : ℚ
  ymin : ℚ
  xmax : ℚ
  ymax : ℚ
deriving DecidableEq

/-- `QuadrantEnum`. -/
inductive Quadrant
  | ne
  | nw
  | sw
  | se
deriving DecidableEq

/-- The order in which the subnodes are tried and walked. -/
def quadrants : List Quadrant := [.ne, .nw, .sw, .se]

namespace Box

/-- `quadbox_is_valid`. -/
def Valid (b : Box) : Prop := b.xmin < b.xmax ∧ b.ymin < b.ymax

/-- `quadbox_width`. -/
def width (b : Box) : ℚ := b.xmax - b.xmin

/-- `quadbox_height`. -/
def height (b : Box) : ℚ := b.ymax - b.ymin

/-- `quadbox_inflate`. -/
def inflate (b : Box) (dx dy : ℚ) : Box :=
  ⟨b.xmin - dx / 2, b.ymin - dy / 2, b.xmax + dx / 2, b.ymax + dy / 2⟩

/-- `quadbox_split`, the box of one quadrant. -/
def split (b : Box) (overlap : ℚ) : Quadrant → Box
  | .ne => ⟨b.xmax - b.width * (1 + overlap) / 2, b.ymax - b.height * (1 + overlap) / 2,
      b.xmax, b.ymax⟩
  | .nw => ⟨b.xmin, b.ymax - b.height * (1 + overlap) / 2,
      b.xmin + b.width * (1 + overlap) / 2, b.ymax⟩
  | .sw => ⟨b.xmin, b.ymin,
      b.xmin + b.width * (1 + overlap) / 2, b.ymin + b.height * (1 + overlap) / 2⟩
  | .se => ⟨b.xmax - b.width * (1 + overlap) / 2, b.ymin,
      b.xmax, b.ymin + b.height * (1 + overlap) / 2⟩

/-- `quadbox_is_inside`. -/
def IsInside (first second : Box) : Prop :=
  second.xmin < first.xmin ∧ second.xmax > first.xmax
    ∧ second.ymin < first.ymin ∧ second.ymax > first.ymax

instance (first second : Box) : Decidable (first.IsInside second) :=
  inferInstanceAs (Decidable (_ ∧ _))

/-- `quadbox_is_overlapped`. -/
def IsOverlapped (first second : Box) : Prop :=
  ¬ (first.xmin > second.xmax ∨ first.xmax < second.xmin
    ∨ first.ymin > second.ymax ∨ first.ymax < second.ymin)

instance (first second : Box) : Decidable (first.IsOverlapped second) :=
  inferInstanceAs (Decidable (¬ _))

/-- One box lies in the other, edges included. -/
def Within (b c : Box) : Prop :=
  c.xmin ≤ b.xmin ∧ b.xmax ≤ c.xmax ∧ c.ymin ≤ b.ymin ∧ b.ymax ≤ c.ymax

variable {b c o : Box}

theorem IsInside.within (h : o.IsInside b) (hbc : b.Within c) : o.IsInside c := by
  obtain ⟨h₁, h₂, h₃, h₄⟩ := h
  obtain ⟨k₁, k₂, k₃, k₄⟩ := hbc
  refine ⟨?_, ?_, ?_, ?_⟩ <;> linarith

/-- What meets a box inside meets the outer box. -/
theorem IsOverlapped.of_inside {s : Box} (h : o.IsOverlapped s) (hob : o.IsInside b) :
    b.IsOverlapped s := by
  obtain ⟨h₁, h₂, h₃, h₄⟩ := hob
  unfold IsOverlapped at h ⊢
  rintro (k | k | k | k)
  · exact h (Or.inl (by linarith))
  · exact h (Or.inr (Or.inl (by linarith)))
  · exact h (Or.inr (Or.inr (Or.inl (by linarith))))
  · exact h (Or.inr (Or.inr (Or.inr (by linarith))))

/-- The side of a quadrant is positive, and no longer than the side of the box. -/
theorem side_bounds {w overlap : ℚ} (hw : 0 < w) (h₀ : 0 < overlap) (h₁ : overlap < 1) :
    0 < w * (1 + overlap) / 2 ∧ w * (1 + overlap) / 2 ≤ w := by
  refine ⟨by positivity, ?_⟩
  have hle : w * overlap ≤ w * 1 := mul_le_mul_of_nonneg_left h₁.le hw.le
  linarith

/-- The quadrants of a valid box are valid and lie in it. -/
theorem split_within (hb : b.Valid) {overlap : ℚ} (h₀ : 0 < overlap) (h₁ : overlap < 1)
    (q : Quadrant) : (b.split overlap q).Valid ∧ (b.split overlap q).Within b := by
  obtain ⟨hx, hy⟩ := hb
  have hw : 0 < b.width := sub_pos.mpr hx
  have hh : 0 < b.height := sub_pos.mpr hy
  obtain ⟨hdx, hdx'⟩ := side_bounds hw h₀ h₁
  obtain ⟨hdy, hdy'⟩ := side_bounds hh h₀ h₁
  have hwidth : b.width = b.xmax - b.xmin := rfl
  have hheight : b.height = b.ymax - b.ymin := rfl
  cases q <;> simp only [Valid, Within, split]
  all_goals
    generalize b.width * (1 + overlap) / 2 = dx at *
    generalize b.height * (1 + overlap) / 2 = dy at *
    refine ⟨⟨?_, ?_⟩, ?_, ?_, ?_, ?_⟩ <;>
      linarith only [hx, hy, hdx, hdx', hdy, hdy', hwidth, hheight]

/-- The box of the root is valid when the box of the scene is. -/
theorem inflate_valid (hb : b.Valid) {dx dy : ℚ} (hx : 0 < dx) (hy : 0 < dy) :
    (b.inflate dx dy).Valid := by
  obtain ⟨h₁, h₂⟩ := hb
  constructor <;> simp only [inflate] <;> linarith

end Box

/-! ## Nodes -/

/-- `quadnode_t`: a box, the objects of the list, and the subnodes if there are any. -/
inductive QuadNode
  | leaf (box : Box) (lst : List ℕ)
  | split (box : Box) (lst : List ℕ) (sub : Quadrant → QuadNode)

namespace QuadNode

def box : QuadNode → Box
  | leaf b _ => b
  | split b _ _ => b

def lst : QuadNode → List ℕ
  | leaf _ l => l
  | split _ l _ => l

/-- The subnodes, after `quadnode_create_child` when there were none. -/
def children (overlap : ℚ) : QuadNode → Quadrant → QuadNode
  | leaf b _ => fun q => leaf (b.split overlap q) []
  | split _ _ sub => sub

/-- `quadnode_add_data`. -/
def addData (a : ℕ) : QuadNode → QuadNode
  | leaf b l => leaf b (a :: l)
  | split b l sub => split b (a :: l) sub

/-- `list_del` of an object, in whichever list it is. -/
def listDel (a : ℕ) : QuadNode → QuadNode
  | leaf b l => leaf b (l.filter fun x => x ≠ a)
  | split b l sub => split b (l.filter fun x => x ≠ a) fun q => (sub q).listDel a

/-- The objects of all lists, in the order of a walk. -/
def objects : QuadNode → List ℕ
  | leaf _ l => l
  | split _ l sub => l ++ quadrants.flatMap fun q => (sub q).objects

/-- The nodes below a node and the node itself, with their boxes and lists. -/
def nodes : QuadNode → List (Box × List ℕ)
  | leaf b l => [(b, l)]
  | split b l sub => (b, l) :: quadrants.flatMap fun q => (sub q).nodes

end QuadNode

/-- `quadtree_insert_node`; `levels` is `tree->_depth - 1 - *depth`, the number of levels that
may be entered below the parent. -/
def quadtreeInsertNode (overlap : ℚ) (a : ℕ) (box : Box) : ℕ → QuadNode → Option QuadNode
  | 0, parent => if box.IsInside parent.box then some (parent.addData a) else none
  | levels + 1, parent =>
      if box.IsInside parent.box then
        let sub := parent.children overlap
        match quadrants.find? fun q => box.IsInside (sub q).box with
        | some q =>
            (quadtreeInsertNode overlap a box levels (sub q)).map fun child =>
              .split parent.box parent.lst (Function.update sub q child)
        | none => some (.split parent.box (a :: parent.lst) sub)
      else none

/-- `results_list[*index] = &node->_lst` for a node with data. -/
def gather (results : List (List ℕ)) (l : List ℕ) : List (List ℕ) :=
  if l = [] then results else results ++ [l]

/-- `quadtree_search_nodes`. -/
def quadtreeSearchNodes (searchBox : Box) (maxIndex : ℕ) :
    QuadNode → List (List ℕ) → List (List ℕ)
  | .leaf b l, results =>
      if maxIndex ≤ results.length then results
      else if b.IsOverlapped searchBox then gather results l else results
  | .split b l sub, results =>
      if maxIndex ≤ results.length then results
      else if b.IsOverlapped searchBox then
        quadrants.foldl (fun r q => quadtreeSearchNodes searchBox maxIndex (sub q) r)
          (gather results l)
      else results

/-- The inner loop of `quadtree_search`: the objects of one list. -/
def reportList (max : ℤ) : List ℕ → List ℕ → List ℕ
  | [], out => out
  | a :: l, out => if (out.length : ℤ) < max then reportList max l (out ++ [a]) else out

/-- The outer loop of `quadtree_search`. -/
def reportLists (max : ℤ) : List (List ℕ) → List ℕ → List ℕ
  | [], out => out
  | l :: ls, out =>
      if (out.length : ℤ) < max then reportLists max ls (reportList max l out) else out

/-- `MAX_LIST_INDEX`. -/
def maxListIndex : ℕ := 1000

/-! ## The tree and its objects -/

/-- What `quadtree_object_t` holds. -/
structure QObject where
  object : ℕ
  objectid : UInt64
  box : Box

/-- `quadtree_t`, with the objects that are allocated. -/
structure QuadState where
  root : QuadNode
  depth : ℤ
  overlap : ℚ
  live : ℕ → Option QObject

/-- `quadtree_create`. -/
def quadtreeCreate (box : Box) (depth : ℤ) (overlap : ℚ) : QuadState where
  root := .leaf (box.inflate (box.width * overlap) (box.height * overlap)) []
  depth := depth
  overlap := overlap
  live := fun _ => none

namespace QuadState

/-- `quadtree_insert_node` from the root, with `*depth` at -1. -/
def insertNode (s : QuadState) (a : ℕ) (box : Box) (root : QuadNode) : Option QuadNode :=
  quadtreeInsertNode s.overlap a box s.depth.toNat root

/-- `quadtree_insert` with the object at the address `a`; the flag is false for `NULL`. -/
def insert (s : QuadState) (a object : ℕ) (objectid : UInt64) (box : Box) : Bool × QuadState :=
  match s.insertNode a box s.root with
  | none => (false, s)
  | some root =>
      (true, { s with
        root := root
        live := Function.update s.live a (some ⟨object, objectid, box⟩) })

/-- `quadtree_del_object`. -/
def delObject (s : QuadState) (a : ℕ) : QuadState :=
  { s with root := s.root.listDel a, live := Function.update s.live a none }

/-- `quadtree_update` of the object at `a`. -/
def update (s : QuadState) (a : ℕ) (object : QObject) (box : Box) : ℤ × QuadState :=
  if ¬ box.IsInside s.root.box then (-1, s)
  else
    let root := s.root.listDel a
    (0, { s with
      root := (s.insertNode a box root).getD root
      live := Function.update s.live a (some { object with box := box }) })

/-- `quadtree_search`. -/
def search (s : QuadState) (box : Box) (max : ℤ) : List ℕ :=
  reportLists max (quadtreeSearchNodes box maxListIndex s.root []) []

/-- A call.  An insert carries the address of the new object. -/
inductive Op
  | insert (a object : ℕ) (objectid : UInt64) (box : Box)
  | update (a : ℕ) (box : Box)
  | del (a : ℕ)

/-- A call: addresses of new objects are new, those of other calls are of live objects. -/
def step (s : QuadState) : Op → Option QuadState
  | .insert a object objectid box =>
      match s.live a with
      | none => some (s.insert a object objectid box).2
      | some _ => none
  | .update a box => (s.live a).map fun object => (s.update a object box).2
  | .del a => (s.live a).map fun _ => s.delObject a

end QuadState

/-! ## The invariant of a node -/

namespace QuadNode

/-- Every box is valid and lies in the box of its parent. -/
def Nested : QuadNode → Prop
  | leaf b _ => b.Valid
  | split b _ sub => b.Valid ∧ ∀ q, (sub q).box.Within b ∧ (sub q).Nested

/-- Every object is live, and its box is strictly inside the box of the node of its list. -/
def Placed (live : ℕ → Option QObject) : QuadNode → Prop
  | leaf b l => ∀ a ∈ l, ∃ o, live a = some o ∧ o.box.IsInside b
  | split b l sub => (∀ a ∈ l, ∃ o, live a = some o ∧ o.box.IsInside b)
      ∧ ∀ q, (sub q).Placed live

variable {n : QuadNode} {live : ℕ → Option QObject} {a : ℕ}

/-- A node has its own objects and those of its quadrants. -/
theorem mem_objects_split {b : Box} {l : List ℕ} {sub : Quadrant → QuadNode} :
    a ∈ (split b l sub).objects ↔ a ∈ l ∨ ∃ q, a ∈ (sub q).objects := by
  simp only [objects, List.mem_append, List.mem_flatMap]
  constructor
  · rintro (h | ⟨q, -, h⟩)
    · exact Or.inl h
    · exact Or.inr ⟨q, h⟩
  · rintro (h | ⟨q, h⟩)
    · exact Or.inl h
    · exact Or.inr ⟨q, by cases q <;> simp [quadrants], h⟩

/-- The box of an object is inside the box of every node above it. -/
theorem Placed.inside (hp : n.Placed live) (hn : n.Nested) (ha : a ∈ n.objects) :
    ∃ o, live a = some o ∧ o.box.IsInside n.box := by
  induction n with
  | leaf b l => exact hp a ha
  | split b l sub ih =>
      rcases mem_objects_split.mp ha with ha | ⟨q, ha⟩
      · exact hp.1 a ha
      · obtain ⟨o, ho, hin⟩ := ih q (hp.2 q) (hn.2 q).2 ha
        exact ⟨o, ho, hin.within (hn.2 q).1⟩

/-- An object is in the list of some node, whose box is around it. -/
theorem Placed.exists_node (hp : n.Placed live) (ha : a ∈ n.objects) :
    ∃ node ∈ n.nodes, a ∈ node.2 ∧ ∃ o, live a = some o ∧ o.box.IsInside node.1 := by
  induction n with
  | leaf b l => exact ⟨(b, l), List.mem_cons_self, ha, hp a ha⟩
  | split b l sub ih =>
      rcases mem_objects_split.mp ha with ha | ⟨q, ha⟩
      · exact ⟨(b, l), List.mem_cons_self, ha, hp.1 a ha⟩
      · obtain ⟨node, hnode, hrest⟩ := ih q (hp.2 q) ha
        refine ⟨node, ?_, hrest⟩
        refine List.mem_cons_of_mem _ (List.mem_flatMap.mpr ⟨q, ?_, hnode⟩)
        cases q <;> simp [quadrants]

/-- A change of an object that is not in the lists does not matter. -/
theorem Placed.congr {live' : ℕ → Option QObject} (hp : n.Placed live)
    (h : ∀ x ∈ n.objects, live' x = live x) : n.Placed live' := by
  induction n with
  | leaf b l =>
      intro x hx
      rw [h x hx]
      exact hp x hx
  | split b l sub ih =>
      refine ⟨?_, ?_⟩
      · intro x hx
        rw [h x (mem_objects_split.mpr (Or.inl hx))]
        exact hp.1 x hx
      · intro q
        exact ih q (hp.2 q) fun x hx => h x (mem_objects_split.mpr (Or.inr ⟨q, hx⟩))

/-! ## Deletion -/

theorem box_listDel (n : QuadNode) : (n.listDel a).box = n.box := by
  cases n <;> rfl

/-- Taking an object out of the lists leaves the others. -/
theorem objects_listDel (n : QuadNode) :
    (n.listDel a).objects = n.objects.filter fun x => x ≠ a := by
  induction n with
  | leaf b l => rfl
  | split b l sub ih =>
      simp only [listDel, objects, List.filter_append, List.filter_flatMap]
      congr 1
      apply List.flatMap_congr
      intro q _
      exact ih q

/-- Taking an object out of the lists keeps the boxes nested. -/
theorem Nested.listDel (hn : n.Nested) : (n.listDel a).Nested := by
  induction n with
  | leaf b l => exact hn
  | split b l sub ih =>
      refine ⟨hn.1, ?_⟩
      intro q
      obtain ⟨hwithin, hnested⟩ := hn.2 q
      exact ⟨by rw [box_listDel]; exact hwithin, ih q hnested⟩

theorem Placed.listDel (hp : n.Placed live) : (n.listDel a).Placed live := by
  induction n with
  | leaf b l =>
      intro x hx
      exact hp x (List.mem_filter.mp hx).1
  | split b l sub ih =>
      refine ⟨?_, fun q => ih q (hp.2 q)⟩
      intro x hx
      exact hp.1 x (List.mem_filter.mp hx).1

/-! ## Insertion -/

/-- The quadrants of a node are boxes inside of it. -/
theorem children_spec {overlap : ℚ} (hn : n.Nested) (h₀ : 0 < overlap) (h₁ : overlap < 1)
    (q : Quadrant) : (n.children overlap q).box.Within n.box ∧ (n.children overlap q).Nested := by
  cases n with
  | leaf b l =>
      obtain ⟨hvalid, hwithin⟩ := Box.split_within hn h₀ h₁ q
      exact ⟨hwithin, hvalid⟩
  | split b l sub => exact hn.2 q

/-- The box of a nested node has an area. -/
theorem Nested.valid (hn : n.Nested) : n.box.Valid := by
  cases n with
  | leaf b l => exact hn
  | split b l sub => exact hn.1

/-- A child has only objects that fit into it. -/
theorem Placed.children {overlap : ℚ} (hp : n.Placed live) (q : Quadrant) :
    (n.children overlap q).Placed live := by
  cases n with
  | leaf b l => exact fun x hx => absurd hx List.not_mem_nil
  | split b l sub => exact hp.2 q

/-- The objects in the list of a node fit into its box. -/
theorem Placed.lst (hp : n.Placed live) :
    ∀ x ∈ n.lst, ∃ o, live x = some o ∧ o.box.IsInside n.box := by
  cases n with
  | leaf b l => exact hp
  | split b l sub => exact hp.1

/-- Creating subnodes does not move objects. -/
theorem objects_eq_children (overlap : ℚ) (n : QuadNode) :
    n.objects = n.lst ++ quadrants.flatMap fun q => (n.children overlap q).objects := by
  cases n with
  | leaf b l => simp [objects, children, QuadNode.lst]
  | split b l sub => rfl

/-- One of several lists grows by an object. -/
theorem flatMap_update_perm {qs : List Quadrant} {q : Quadrant} {f g : Quadrant → List ℕ}
    (hqs : qs.Nodup) (hq : q ∈ qs) (hfq : (f q).Perm (a :: g q)) (hf : ∀ r, r ≠ q → f r = g r) :
    (qs.flatMap f).Perm (a :: qs.flatMap g) := by
  induction qs with
  | nil => cases hq
  | cons r qs ih =>
      obtain ⟨hr, hqs⟩ := List.nodup_cons.mp hqs
      rw [List.flatMap_cons, List.flatMap_cons]
      by_cases hrq : r = q
      · subst hrq
        have hrest : qs.flatMap f = qs.flatMap g := by
          apply List.flatMap_congr
          intro x hx
          exact hf x (by rintro rfl; exact hr hx)
        rw [hrest]
        exact hfq.append_right _
      · rw [hf r hrq]
        have htail := ih hqs ((List.mem_cons.mp hq).resolve_left (Ne.symm hrq))
        exact (htail.append_left (g r)).trans List.perm_middle

theorem quadrants_nodup : quadrants.Nodup := by decide

theorem mem_quadrants (q : Quadrant) : q ∈ quadrants := by
  cases q <;> decide

/-- A node keeps its box when an object is put into it or below it. -/
theorem box_insertNode {overlap : ℚ} {box : Box} {levels : ℕ} {n' : QuadNode}
    (h : quadtreeInsertNode overlap a box levels n = some n') : n'.box = n.box := by
  cases levels with
  | zero =>
      rw [quadtreeInsertNode] at h
      split_ifs at h
      rw [← Option.some.inj h]
      cases n <;> rfl
  | succ levels =>
      rw [quadtreeInsertNode] at h
      dsimp only at h
      split_ifs at h
      split at h
      · obtain ⟨child, -, rfl⟩ := Option.map_eq_some_iff.mp h
        rfl
      · rw [← Option.some.inj h]
        rfl

/-- **Insertion.**  The box of the node and the nesting stay, the object is placed, and the lists
hold one object more. -/
theorem insertNode_spec {overlap : ℚ} (h₀ : 0 < overlap) (h₁ : overlap < 1) {o : QObject}
    (ho : live a = some o) {levels : ℕ} {n' : QuadNode} (hn : n.Nested) (hp : n.Placed live)
    (h : quadtreeInsertNode overlap a o.box levels n = some n') :
    n'.box = n.box ∧ n'.Nested ∧ n'.Placed live ∧ n'.objects.Perm (a :: n.objects) := by
  induction levels generalizing n n' with
  | zero =>
      rw [quadtreeInsertNode] at h
      split_ifs at h with hin
      rw [Option.some.injEq] at h
      subst h
      have hall : ∀ x ∈ a :: n.lst, ∃ o, live x = some o ∧ o.box.IsInside n.box := by
        intro x hx
        rcases List.mem_cons.mp hx with rfl | hx
        · exact ⟨o, ho, hin⟩
        · exact hp.lst x hx
      cases n with
      | leaf b l => exact ⟨rfl, hn, hall, List.Perm.refl _⟩
      | split b l sub => exact ⟨rfl, hn, ⟨hall, hp.2⟩, List.Perm.refl _⟩
  | succ levels ih =>
      rw [quadtreeInsertNode] at h
      split_ifs at h with hin
      have hsub := @children_spec n overlap hn h₀ h₁
      cases hfind : quadrants.find? fun q => decide (o.box.IsInside (n.children overlap q).box) with
      | none =>
          simp only [hfind, Option.some.injEq] at h
          subst h
          refine ⟨rfl, ⟨hn.valid, hsub⟩, ⟨?_, fun q => hp.children q⟩, ?_⟩
          · intro x hx
            rcases List.mem_cons.mp hx with rfl | hx
            · exact ⟨o, ho, hin⟩
            · exact hp.lst x hx
          · rw [objects_eq_children overlap n]
            exact List.Perm.refl _
      | some q =>
          simp only [hfind, Option.map_eq_some_iff] at h
          obtain ⟨child, hchild, rfl⟩ := h
          obtain ⟨hbox, hnested, hplaced, hperm⟩ := ih (hsub q).2 (hp.children q) hchild
          refine ⟨rfl, ⟨hn.valid, ?_⟩, ⟨hp.lst, ?_⟩, ?_⟩
          · intro r
            rcases eq_or_ne r q with rfl | hne
            · rw [Function.update_self, hbox]
              exact ⟨(hsub r).1, hnested⟩
            · rw [Function.update_of_ne hne]
              exact hsub r
          · intro r
            rcases eq_or_ne r q with rfl | hne
            · rw [Function.update_self]
              exact hplaced
            · rw [Function.update_of_ne hne]
              exact hp.children r
          · rw [objects_eq_children overlap n]
            have hgrow : (quadrants.flatMap fun r =>
                (Function.update (n.children overlap) q child r).objects).Perm
                (a :: quadrants.flatMap fun r => (n.children overlap r).objects) := by
              refine flatMap_update_perm quadrants_nodup (mem_quadrants q) ?_ ?_
              · rw [Function.update_self]
                exact hperm
              · intro r hne
                rw [Function.update_of_ne hne]
            exact (hgrow.append_left n.lst).trans List.perm_middle

/-- A box inside the node can be inserted. -/
theorem insertNode_isSome {overlap : ℚ} {box : Box} {levels : ℕ} (h : box.IsInside n.box) :
    ∃ n', quadtreeInsertNode overlap a box levels n = some n' := by
  induction levels generalizing n with
  | zero => exact ⟨_, by rw [quadtreeInsertNode, if_pos h]⟩
  | succ levels ih =>
      rw [quadtreeInsertNode, if_pos h]
      cases hfind : quadrants.find? fun q => decide (box.IsInside (n.children overlap q).box) with
      | none => exact ⟨_, by simp only [hfind]; rfl⟩
      | some q =>
          have hq : box.IsInside (n.children overlap q).box := by
            simpa using List.find?_some hfind
          obtain ⟨child, hchild⟩ := ih hq
          exact ⟨_, by simp only [hfind, hchild]; rfl⟩

/-- A box that is not inside the node is refused. -/
theorem insertNode_eq_none {overlap : ℚ} {box : Box} {levels : ℕ} (h : ¬ box.IsInside n.box) :
    quadtreeInsertNode overlap a box levels n = none := by
  cases levels <;> rw [quadtreeInsertNode, if_neg h]

/-! ## Search -/

/-- The lists that a search gathers when nothing is cut off. -/
def gathered (searchBox : Box) : QuadNode → List (List ℕ)
  | leaf b l => if b.IsOverlapped searchBox then gather [] l else []
  | split b l sub =>
      if b.IsOverlapped searchBox then
        gather [] l ++ quadrants.flatMap fun q => (sub q).gathered searchBox
      else []

end QuadNode

theorem gather_eq_append (results : List (List ℕ)) (l : List ℕ) :
    gather results l = results ++ gather [] l := by
  unfold gather
  split_ifs <;> simp

/-- The objects of a list are gathered as they are. -/
theorem gather_nil_flatten (l : List ℕ) : (gather [] l).flatten = l := by
  unfold gather
  split_ifs with h
  · simp [h]
  · simp

/-- One list gives one list at most. -/
theorem length_gather_nil_le (l : List ℕ) : (gather [] l).length ≤ 1 := by
  unfold gather
  split_ifs <;> simp

/-- Cutting off early is no different from cutting off at the end. -/
theorem take_take_append {α : Type*} (m : ℕ) (A B : List α) :
    (A.take m ++ B).take m = (A ++ B).take m := by
  rw [List.take_append, List.take_append, List.take_take, min_self, List.length_take]
  congr 2
  omega

/-- Steps that fill a list up to a limit fill it up to the limit together. -/
theorem foldl_eq_take {α ι : Type*} {m : ℕ} {f : List α → ι → List α} {g : ι → List α}
    (h : ∀ r i, r.length ≤ m → f r i = (r ++ g i).take m) (is : List ι) {r : List α}
    (hr : r.length ≤ m) : is.foldl f r = (r ++ is.flatMap g).take m := by
  induction is generalizing r with
  | nil =>
      rw [List.foldl_nil, List.flatMap_nil, List.append_nil]
      exact (List.take_of_length_le hr).symm
  | cons i is ih =>
      have hlen : (f r i).length ≤ m := by
        rw [h r i hr]
        exact List.length_take_le m _
      rw [List.foldl_cons, ih hlen, h r i hr, take_take_append, List.flatMap_cons,
        List.append_assoc]

/-- A full list stays as it is. -/
theorem full_eq_take {α : Type*} {m : ℕ} {r : List α} (hr : r.length ≤ m) (hm : m ≤ r.length)
    (rest : List α) : r = (r ++ rest).take m := by
  rw [List.take_append_of_le_length hm, List.take_of_length_le hr]

/-- Below the limit there is room for one list more. -/
theorem gather_eq_take {m : ℕ} {r : List (List ℕ)} (hr : ¬ m ≤ r.length) (l : List ℕ) :
    (gather r l).length ≤ m := by
  have hone := length_gather_nil_le l
  rw [gather_eq_append, List.length_append]
  omega

/-- **The walk and the cut-off.**  A search gathers the first lists of the whole walk. -/
theorem searchNodes_eq_take {searchBox : Box} {m : ℕ} (n : QuadNode) {results : List (List ℕ)}
    (hr : results.length ≤ m) :
    quadtreeSearchNodes searchBox m n results = (results ++ n.gathered searchBox).take m := by
  induction n generalizing results with
  | leaf b l =>
      rw [quadtreeSearchNodes, QuadNode.gathered]
      split_ifs with hm hover hover
      · exact full_eq_take hr hm _
      · exact full_eq_take hr hm _
      · rw [← gather_eq_append, List.take_of_length_le (gather_eq_take hm l)]
      · rw [List.append_nil, List.take_of_length_le hr]
  | split b l sub ih =>
      rw [quadtreeSearchNodes, QuadNode.gathered]
      split_ifs with hm hover hover
      · exact full_eq_take hr hm _
      · exact full_eq_take hr hm _
      · rw [← List.append_assoc, ← gather_eq_append]
        exact foldl_eq_take (fun r q hrlen => ih q hrlen) quadrants (gather_eq_take hm l)
      · rw [List.append_nil, List.take_of_length_le hr]

/-- The report of a list stops at the limit. -/
theorem reportList_eq_take {max : ℤ} (l : List ℕ) {out : List ℕ} (hout : out.length ≤ max.toNat) :
    reportList max l out = (out ++ l).take max.toNat := by
  induction l generalizing out with
  | nil => rw [reportList, List.append_nil, List.take_of_length_le hout]
  | cons a l ih =>
      rw [reportList]
      split_ifs with hlt
      · rw [ih (by rw [List.length_append, List.length_singleton]; omega), List.append_assoc,
          List.singleton_append]
      · exact full_eq_take hout (by omega) _

theorem reportLists_eq_take {max : ℤ} (ls : List (List ℕ)) {out : List ℕ}
    (hout : out.length ≤ max.toNat) :
    reportLists max ls out = (out ++ ls.flatten).take max.toNat := by
  induction ls generalizing out with
  | nil => rw [reportLists, List.flatten_nil, List.append_nil, List.take_of_length_le hout]
  | cons l ls ih =>
      rw [reportLists]
      split_ifs with hlt
      · have hlen : (reportList max l out).length ≤ max.toNat := by
          rw [reportList_eq_take l hout]
          exact List.length_take_le _ _
        rw [ih hlen, reportList_eq_take l hout, take_take_append, List.append_assoc,
          List.flatten_cons]
      · exact full_eq_take hout (by omega) _

/-- A search reports a part of what is in the first lists of the walk. -/
theorem QuadState.search_eq (s : QuadState) (box : Box) (max : ℤ) :
    s.search box max
      = ((s.root.gathered box).take maxListIndex).flatten.take max.toNat := by
  rw [QuadState.search, reportLists_eq_take _ (Nat.zero_le _),
    searchNodes_eq_take _ (Nat.zero_le _), List.nil_append, List.nil_append]

namespace QuadNode

variable {n : QuadNode} {live : ℕ → Option QObject} {a : ℕ}

/-- No gathered list is empty. -/
theorem ne_nil_of_mem_gathered {searchBox : Box} {l : List ℕ}
    (hl : l ∈ n.gathered searchBox) : l ≠ [] := by
  have hgather : ∀ k : List ℕ, l ∈ gather [] k → l ≠ [] := by
    intro k hk
    unfold gather at hk
    split_ifs at hk with hnil
    · cases hk
    · rw [List.nil_append, List.mem_singleton] at hk
      rw [hk]
      exact hnil
  induction n with
  | leaf b k =>
      rw [gathered] at hl
      split_ifs at hl
      · exact hgather k hl
      · cases hl
  | split b k sub ih =>
      rw [gathered] at hl
      split_ifs at hl
      · rcases List.mem_append.mp hl with hl | hl
        · exact hgather k hl
        · obtain ⟨q, -, hq⟩ := List.mem_flatMap.mp hl
          exact ih q hq
      · cases hl

theorem flatten_flatMap {α ι : Type*} (is : List ι) (f : ι → List (List α)) :
    (is.flatMap f).flatten = is.flatMap fun i => (f i).flatten := by
  induction is with
  | nil => rfl
  | cons i is ih => rw [List.flatMap_cons, List.flatten_append, ih, List.flatMap_cons]

/-- What is gathered is in the lists, in the same order. -/
theorem gathered_flatten_sublist (searchBox : Box) (n : QuadNode) :
    (n.gathered searchBox).flatten.Sublist n.objects := by
  induction n with
  | leaf b l =>
      rw [gathered]
      split_ifs
      · rw [gather_nil_flatten]
        exact List.Sublist.refl _
      · exact List.nil_sublist _
  | split b l sub ih =>
      rw [gathered]
      split_ifs
      · rw [List.flatten_append, gather_nil_flatten, objects, flatten_flatMap]
        apply (List.Sublist.refl l).append
        exact List.Sublist.flatMap_right _ fun q _ => ih q
      · exact List.nil_sublist _

/-- A node meets the search box when an object below it does. -/
theorem Placed.meets {searchBox : Box} (hp : n.Placed live) (hn : n.Nested) {o : QObject}
    (ho : live a = some o) (ha : a ∈ n.objects) (hover : o.box.IsOverlapped searchBox) :
    n.box.IsOverlapped searchBox := by
  obtain ⟨o', ho', hin⟩ := hp.inside hn ha
  rw [ho, Option.some.injEq] at ho'
  subst ho'
  exact hover.of_inside hin

/-- An object that meets the search box is gathered. -/
theorem mem_gathered_flatten {searchBox : Box} (hn : n.Nested) (hp : n.Placed live)
    {o : QObject} (ho : live a = some o) (ha : a ∈ n.objects)
    (hover : o.box.IsOverlapped searchBox) : a ∈ (n.gathered searchBox).flatten := by
  induction n with
  | leaf b l =>
      have hmeets : b.IsOverlapped searchBox := hp.meets hn ho ha hover
      rw [gathered, if_pos hmeets, gather_nil_flatten]
      exact ha
  | split b l sub ih =>
      have hmeets : b.IsOverlapped searchBox := hp.meets hn ho ha hover
      rw [gathered, if_pos hmeets, List.flatten_append, gather_nil_flatten, List.mem_append,
        flatten_flatMap]
      rcases mem_objects_split.mp ha with ha | ⟨q, ha⟩
      · exact Or.inl ha
      · right
        exact List.mem_flatMap.mpr ⟨q, mem_quadrants q, ih q (hn.2 q).2 (hp.2 q) ha⟩

/-- The lists of the nodes are the lists of the walk. -/
theorem nodes_flatMap (n : QuadNode) : n.nodes.flatMap Prod.snd = n.objects := by
  induction n with
  | leaf b l => simp [nodes, objects]
  | split b l sub ih =>
      rw [nodes, List.flatMap_cons, List.flatMap_assoc, objects]
      congr 1
      apply List.flatMap_congr
      intro q _
      exact ih q

end QuadNode

/-- A list of non-empty lists has at least as many elements as lists. -/
theorem length_le_length_flatten {α : Type*} {ls : List (List α)} (h : ∀ l ∈ ls, l ≠ []) :
    ls.length ≤ ls.flatten.length := by
  induction ls with
  | nil => exact le_refl _
  | cons l ls ih =>
      obtain ⟨hl, hls⟩ := List.forall_mem_cons.mp h
      have hpos := List.length_pos_of_ne_nil hl
      have hrest := ih hls
      rw [List.length_cons, List.flatten_cons, List.length_append]
      omega

/-! ## The invariant of the tree -/

namespace QuadState

/-- The objects that are alive are in the lists, each once and in a node around it. -/
structure Inv (s : QuadState) : Prop where
  overlap_pos : 0 < s.overlap
  overlap_lt : s.overlap < 1
  nested : s.root.Nested
  placed : s.root.Placed s.live
  nodup : s.root.objects.Nodup
  mem_iff : ∀ a, a ∈ s.root.objects ↔ ∃ o, s.live a = some o

variable {s s' : QuadState} {a : ℕ}

/-- A search finds objects of the tree. -/
theorem search_sublist (s : QuadState) (box : Box) (max : ℤ) :
    (s.search box max).Sublist s.root.objects := by
  rw [search_eq]
  apply (List.take_sublist _ _).trans
  apply (List.Sublist.flatten (List.take_sublist _ _)).trans
  exact s.root.gathered_flatten_sublist box

/-- **Counting.**  A search that reports fewer objects than asked for has cut nothing off: there
were fewer than `max` objects in the gathered lists, so fewer than 1000 lists. -/
theorem search_eq_gathered {box : Box} {max : ℤ} (hmax : max ≤ 1000)
    (h : ((s.search box max).length : ℤ) < max) :
    s.search box max = (s.root.gathered box).flatten := by
  rw [search_eq] at h ⊢
  rw [List.length_take] at h
  have hfew : ((s.root.gathered box).take maxListIndex).flatten.length < max.toNat := by omega
  have hlists : ((s.root.gathered box).take maxListIndex).length
      ≤ ((s.root.gathered box).take maxListIndex).flatten.length :=
    length_le_length_flatten fun l hl =>
      QuadNode.ne_nil_of_mem_gathered (List.mem_of_mem_take hl)
  rw [List.length_take] at hlists
  have hall : (s.root.gathered box).length ≤ maxListIndex := by
    unfold maxListIndex at *
    omega
  rw [List.take_of_length_le (by omega), List.take_of_length_le hall]

/-- **Completeness of the search.** -/
theorem search_complete (hs : s.Inv) {box : Box} {max : ℤ} (hmax : max ≤ 1000)
    (h : ((s.search box max).length : ℤ) < max) {o : QObject} (ho : s.live a = some o)
    (hover : o.box.IsOverlapped box) : a ∈ s.search box max := by
  rw [search_eq_gathered hmax h]
  exact QuadNode.mem_gathered_flatten hs.nested hs.placed ho ((hs.mem_iff a).mpr ⟨o, ho⟩) hover

/-- An object that is in no list is put into one. -/
theorem Inv.place (hs : s.Inv) {n n' : QuadNode} (hn : n.Nested) (hp : n.Placed s.live)
    (hnodup : n.objects.Nodup)
    (hmem : ∀ x, x ∈ n.objects ↔ x ≠ a ∧ ∃ o, s.live x = some o) {o : QObject}
    (h : s.insertNode a o.box n = some n') :
    Inv { s with root := n', live := Function.update s.live a (some o) } := by
  have hna : a ∉ n.objects := fun ha => ((hmem a).mp ha).1 rfl
  have hp' : n.Placed (Function.update s.live a (some o)) := by
    apply hp.congr
    intro x hx
    exact Function.update_of_ne ((hmem x).mp hx).1 _ _
  obtain ⟨-, hnested, hplaced, hperm⟩ := QuadNode.insertNode_spec hs.overlap_pos hs.overlap_lt
    (Function.update_self a (some o) s.live) hn hp' h
  constructor
  · exact hs.overlap_pos
  · exact hs.overlap_lt
  · exact hnested
  · exact hplaced
  · exact hperm.nodup_iff.mpr (List.nodup_cons.mpr ⟨hna, hnodup⟩)
  · intro x
    rw [hperm.mem_iff, List.mem_cons, hmem]
    rcases eq_or_ne x a with rfl | hne
    · simp
    · simp [hne]

/-- Where a new object goes, when it is inside the tree. -/
theorem insert_cases (s : QuadState) (a object : ℕ) (objectid : UInt64) (box : Box) :
    (¬ box.IsInside s.root.box ∧ s.insert a object objectid box = (false, s))
      ∨ (box.IsInside s.root.box ∧ ∃ root, s.insertNode a box s.root = some root
        ∧ s.insert a object objectid box = (true, { s with
            root := root
            live := Function.update s.live a (some ⟨object, objectid, box⟩) })) := by
  by_cases hin : box.IsInside s.root.box
  · right
    obtain ⟨root, hroot⟩ : ∃ n', s.insertNode a box s.root = some n' :=
      QuadNode.insertNode_isSome hin
    exact ⟨hin, root, hroot, by simp only [insert, hroot]⟩
  · left
    have hnone : s.insertNode a box s.root = none := QuadNode.insertNode_eq_none hin
    exact ⟨hin, by simp only [insert, hnone]⟩

/-- An insert keeps the invariant. -/
theorem Inv.insert (hs : s.Inv) (ha : s.live a = none) (object : ℕ) (objectid : UInt64)
    (box : Box) : (s.insert a object objectid box).2.Inv := by
  rcases s.insert_cases a object objectid box with ⟨-, h⟩ | ⟨-, root, hroot, h⟩
  · rw [h]
    exact hs
  · rw [h]
    refine hs.place hs.nested hs.placed hs.nodup ?_ (o := ⟨object, objectid, box⟩) hroot
    intro x
    rw [hs.mem_iff]
    constructor
    · rintro ⟨o, ho⟩
      refine ⟨?_, o, ho⟩
      rintro rfl
      rw [ha] at ho
      cases ho
    · exact fun h => h.2

/-- Which objects the lists have behind a deletion. -/
theorem mem_listDel_iff (hs : s.Inv) (x : ℕ) :
    x ∈ (s.root.listDel a).objects ↔ x ≠ a ∧ ∃ o, s.live x = some o := by
  rw [QuadNode.objects_listDel, List.mem_filter, hs.mem_iff, decide_eq_true_iff, and_comm]

/-- Where the object at `a` moves, when it may. -/
theorem update_cases (s : QuadState) (a : ℕ) (object : QObject) (box : Box) :
    (¬ box.IsInside s.root.box ∧ s.update a object box = (-1, s))
      ∨ (box.IsInside s.root.box ∧ ∃ root, s.insertNode a box (s.root.listDel a) = some root
        ∧ s.update a object box = (0, { s with
            root := root
            live := Function.update s.live a (some { object with box := box }) })) := by
  by_cases hin : box.IsInside s.root.box
  · right
    obtain ⟨root, hroot⟩ : ∃ n', s.insertNode a box (s.root.listDel a) = some n' :=
      QuadNode.insertNode_isSome (by rw [QuadNode.box_listDel]; exact hin)
    refine ⟨hin, root, hroot, ?_⟩
    rw [update, if_neg (not_not.mpr hin)]
    simp only [hroot, Option.getD_some]
  · exact Or.inl ⟨hin, by rw [update, if_pos hin]⟩

/-- An update keeps the invariant. -/
theorem Inv.update (hs : s.Inv) (object : QObject) (box : Box) :
    (s.update a object box).2.Inv := by
  rcases s.update_cases a object box with ⟨-, h⟩ | ⟨-, root, hroot, h⟩
  · rw [h]
    exact hs
  · rw [h]
    refine hs.place hs.nested.listDel hs.placed.listDel ?_ (mem_listDel_iff hs)
      (o := { object with box := box }) hroot
    rw [QuadNode.objects_listDel]
    exact hs.nodup.filter _

theorem live_delObject (s : QuadState) (a : ℕ) :
    (s.delObject a).live = Function.update s.live a none := rfl

/-- A deletion keeps the invariant. -/
theorem Inv.delObject (hs : s.Inv) (a : ℕ) : (s.delObject a).Inv := by
  constructor
  · exact hs.overlap_pos
  · exact hs.overlap_lt
  · exact hs.nested.listDel
  · apply hs.placed.listDel.congr
    intro x hx
    exact Function.update_of_ne ((mem_listDel_iff hs x).mp hx).1 _ _
  · simp only [QuadState.delObject, QuadNode.objects_listDel]
    exact hs.nodup.filter _
  · intro x
    simp only [QuadState.delObject]
    rw [mem_listDel_iff hs]
    rcases eq_or_ne x a with rfl | hne
    · simp
    · simp [hne]

/-- Every operation keeps the invariant. -/
theorem Inv.step (hs : s.Inv) {op : Op} (h : s.step op = some s') : s'.Inv := by
  cases op with
  | insert a object objectid box =>
      simp only [QuadState.step] at h
      split at h
      · rename_i ha
        rw [Option.some.injEq] at h
        exact h ▸ hs.insert ha object objectid box
      · cases h
  | update a box =>
      obtain ⟨object, -, rfl⟩ := Option.map_eq_some_iff.mp h
      exact hs.update object box
  | del a =>
      obtain ⟨object, -, rfl⟩ := Option.map_eq_some_iff.mp h
      exact hs.delObject a

/-- A new tree satisfies the invariant. -/
theorem create_inv {box : Box} (hbox : box.Valid) (depth : ℤ) {overlap : ℚ} (h₀ : 0 < overlap)
    (h₁ : overlap < 1) : (quadtreeCreate box depth overlap).Inv := by
  have hw : 0 < box.width * overlap := mul_pos (by unfold Box.width; linarith [hbox.1]) h₀
  have hh : 0 < box.height * overlap := mul_pos (by unfold Box.height; linarith [hbox.2]) h₀
  constructor
  · exact h₀
  · exact h₁
  · exact Box.inflate_valid hbox hw hh
  · intro a ha
    cases ha
  · exact List.nodup_nil
  · intro a
    simp [quadtreeCreate, QuadNode.objects]

/-- An insert does not change the box of the root. -/
theorem root_box_insert (s : QuadState) (a object : ℕ) (objectid : UInt64) (box : Box) :
    (s.insert a object objectid box).2.root.box = s.root.box := by
  rcases s.insert_cases a object objectid box with ⟨-, heq⟩ | ⟨-, root, hroot, heq⟩
  · rw [heq]
  · rw [heq]
    exact QuadNode.box_insertNode hroot

theorem root_box_update (s : QuadState) (a : ℕ) (object : QObject) (box : Box) :
    (s.update a object box).2.root.box = s.root.box := by
  rcases s.update_cases a object box with ⟨-, heq⟩ | ⟨-, root, hroot, heq⟩
  · rw [heq]
  · rw [heq]
    exact (QuadNode.box_insertNode hroot).trans (QuadNode.box_listDel _)

/-- The box of the root stays. -/
theorem root_box_step {op : Op} (h : s.step op = some s') : s'.root.box = s.root.box := by
  cases op with
  | insert a object objectid box =>
      simp only [QuadState.step] at h
      split at h
      · rw [← Option.some.inj h, root_box_insert]
      · cases h
  | update a box =>
      obtain ⟨object, -, rfl⟩ := Option.map_eq_some_iff.mp h
      exact s.root_box_update a object box
  | del a =>
      obtain ⟨object, -, rfl⟩ := Option.map_eq_some_iff.mp h
      exact QuadNode.box_listDel _

/-! ## What the calls say -/

/-- What the results of the next call say of the objects that are alive, in a tree whose root has
the box `rootBox`: a call succeeds exactly when the box it is given is inside, an insert that
succeeds makes its object live with its box, an update that succeeds gives the object its new
box, a delete takes its object away, and a call that fails leaves the tree and the objects. -/
structure Tells (rootBox : Box) (s : QuadState) : Prop where
  insert : ∀ a object objectid box, s.live a = none →
    ((s.insert a object objectid box).1 = true ↔ box.IsInside rootBox)
      ∧ ((s.insert a object objectid box).1 = true →
        (s.insert a object objectid box).2.live
          = Function.update s.live a (some ⟨object, objectid, box⟩))
      ∧ ((s.insert a object objectid box).1 = false → (s.insert a object objectid box).2 = s)
  update : ∀ a o box, s.live a = some o →
    ((s.update a o box).1 = 0 ↔ box.IsInside rootBox)
      ∧ ((s.update a o box).1 = 0 →
        (s.update a o box).2.live = Function.update s.live a (some { o with box := box }))
      ∧ ((s.update a o box).1 ≠ 0 → (s.update a o box).1 = -1 ∧ (s.update a o box).2 = s)
  del : ∀ a o, s.live a = some o → (s.delObject a).live = Function.update s.live a none

/-- The root box says which calls succeed, in any state. -/
theorem tells_root (s : QuadState) : s.Tells s.root.box where
  insert := by
    intro a object objectid box _
    rcases s.insert_cases a object objectid box with ⟨hout, heq⟩ | ⟨hin, root, -, heq⟩
    · rw [heq]
      exact ⟨⟨fun h => (Bool.false_ne_true h).elim, fun h => (hout h).elim⟩,
        fun h => (Bool.false_ne_true h).elim, fun _ => rfl⟩
    · rw [heq]
      exact ⟨⟨fun _ => hin, fun _ => rfl⟩, fun _ => rfl, fun h => (Bool.false_ne_true h.symm).elim⟩
  update := by
    intro a o box _
    have hfail : ¬ (-1 : ℤ) = 0 := by decide
    rcases s.update_cases a o box with ⟨hout, heq⟩ | ⟨hin, root, -, heq⟩
    · rw [heq]
      exact ⟨⟨fun h => (hfail h).elim, fun h => (hout h).elim⟩, fun h => (hfail h).elim,
        fun _ => ⟨rfl, rfl⟩⟩
    · rw [heq]
      exact ⟨⟨fun _ => hin, fun _ => rfl⟩, fun _ => rfl, fun h => (h rfl).elim⟩
  del := fun a _ _ => s.live_delObject a

/-- **The search is complete.**  After any sequence of inserts, updates and deletes, each live
object is in exactly one list, of a node around its box, boxes are nested, and a search that did
not fill its output has reported every live object that meets the box.  Which objects are alive,
and with which boxes, is what the results of the calls say. -/
theorem quadtree_search_complete {box : Box} (hbox : box.Valid) (depth : ℤ) {overlap : ℚ}
    (h₀ : 0 < overlap) (h₁ : overlap < 1) {s : QuadState}
    (hs : Reach step Always (quadtreeCreate box depth overlap) s) :
    (∀ a o, s.live a = some o → (s.root.nodes.flatMap Prod.snd).count a = 1
        ∧ ∃ node ∈ s.root.nodes, a ∈ node.2 ∧ o.box.IsInside node.1)
      ∧ s.root.Nested
      ∧ (∀ searchBox : Box, ∀ max : ℤ, max ≤ 1000 →
          (s.search searchBox max).Nodup
            ∧ (∀ a ∈ s.search searchBox max, ∃ o, s.live a = some o)
            ∧ (((s.search searchBox max).length : ℤ) < max →
              ∀ a o, s.live a = some o → o.box.IsOverlapped searchBox →
                a ∈ s.search searchBox max))
      ∧ s.Tells (box.inflate (box.width * overlap) (box.height * overlap)) := by
  have hinv : s.Inv := hs.invariant Inv (create_inv hbox depth h₀ h₁)
    fun _ _ _ hi _ hstep => hi.step hstep
  have hroot : s.root.box = box.inflate (box.width * overlap) (box.height * overlap) :=
    hs.invariant (fun s => s.root.box = box.inflate (box.width * overlap) (box.height * overlap))
      rfl fun _ _ _ hi _ hstep => (root_box_step hstep).trans hi
  refine ⟨?_, hinv.nested, ?_, ?_⟩
  · intro a o ho
    have ha : a ∈ s.root.objects := (hinv.mem_iff a).mpr ⟨o, ho⟩
    obtain ⟨node, hnode, hlist, o', ho', hin⟩ := hinv.placed.exists_node ha
    rw [ho, Option.some.injEq] at ho'
    subst ho'
    rw [QuadNode.nodes_flatMap]
    exact ⟨List.count_eq_one_of_mem hinv.nodup ha, node, hnode, hlist, hin⟩
  · intro searchBox max hmax
    have hsub := s.search_sublist searchBox max
    refine ⟨hsub.nodup hinv.nodup, ?_, ?_⟩
    · intro a ha
      exact (hinv.mem_iff a).mp (hsub.subset ha)
    · intro hlen a o ho hover
      exact search_complete hinv hmax hlen ho hover
  · rw [← hroot]
    exact s.tells_root

/-- Three objects, one of which has moved into the search box and one of which is gone; the next
update puts a second one there. -/
theorem quadtree_search_complete_moved :
    ∃ s, Reach step Always (quadtreeCreate ⟨0, 0, 100, 100⟩ 5 (1 / 10)) s
      ∧ s.search ⟨60, 60, 90, 90⟩ 10 = [1]
      ∧ (∀ a o, s.live a = some o → o.box.IsOverlapped ⟨60, 60, 90, 90⟩ → a ∈ [1])
      ∧ ∃ o, s.live 2 = some o ∧ (s.update 2 o ⟨80, 80, 104, 82⟩).1 = 0
        ∧ (s.update 2 o ⟨80, 80, 104, 82⟩).2.live
          = Function.update s.live 2 (some { o with box := ⟨80, 80, 104, 82⟩ }) := by
  have hrun : (run step Always (quadtreeCreate ⟨0, 0, 100, 100⟩ 5 (1 / 10))
      [.insert 1 0 7 ⟨10, 10, 12, 12⟩, .insert 2 0 8 ⟨20, 20, 22, 22⟩,
        .insert 3 0 9 ⟨70, 70, 72, 72⟩, .update 1 ⟨70, 70, 72, 72⟩, .update 2 ⟨70, 70, 200, 72⟩,
        .del 3]).map
        (fun s => (s.search ⟨60, 60, 90, 90⟩ 10, (s.live 2).isSome)) = some ([1], true) := by
    decide +kernel
  obtain ⟨s, hs, hobs⟩ := Option.map_eq_some_iff.mp hrun
  rw [Prod.mk.injEq] at hobs
  obtain ⟨hsearch, hlive⟩ := hobs
  obtain ⟨o, ho⟩ := Option.isSome_iff_exists.mp hlive
  have hreach : Reach step Always (quadtreeCreate ⟨0, 0, 100, 100⟩ 5 (1 / 10)) s :=
    Reach.refl.run _ hs
  obtain ⟨-, -, hcomplete, htells⟩ := quadtree_search_complete ⟨by norm_num, by norm_num⟩ 5
    (by norm_num) (by norm_num) hreach
  obtain ⟨hinside, hmoved, -⟩ := htells.update 2 o ⟨80, 80, 104, 82⟩ ho
  have hzero : (s.update 2 o ⟨80, 80, 104, 82⟩).1 = 0 := hinside.mpr (by decide +kernel)
  refine ⟨s, hreach, hsearch, ?_, o, ho, hzero, hmoved hzero⟩
  intro a o ho hover
  rw [← hsearch]
  refine (hcomplete ⟨60, 60, 90, 90⟩ 10 (by norm_num)).2.2 ?_ a o ho hover
  rw [hsearch]
  norm_num

end QuadState

end Zevent.Webgame
