/-
# What a tree can become

A tree starts with its root, and is then changed only by the operations listed as `Tree.Action`.
Each of them may fail, for any reason, and leaves a tree behind in any case; the next one goes on
with that tree.  The protectors may be others for each operation, and so may everything else that a
tree is told of its surroundings.

Trees obtained in this way are well-formed (`wellFormed_run`), for every operation keeps them so
(`wellFormed_perform`), and their nodes stay where they are (`grows_run`).  `agreement_run` spells
out what that means for the parts of the tree.
-/
import TreeBorrows.Proofs.Tree.Advance
import TreeBorrows.Proofs.Tree.WellFormed

namespace TreeBorrows

namespace Tree

/-! ## 1. Histories -/

/-- One operation on a tree. -/
inductive Action where
  | insertChild (ctx : Context) (child : NewChild)
  | access (ctx : Context) (access : Access)
  | free (ctx : Context) (tag : Tag)
  | resetAbsorption (tag : Tag)
  | name (tag : Tag) (depth : Nat) (name : String)

/-- What an operation leaves, and whether it succeeded. -/
def perform (t : Tree) : Action → Outcome Tree Unit
  | .insertChild ctx child => t.insertChild ctx child
  | .access ctx access => t.access ctx access
  | .free ctx tag => t.free ctx tag
  | .resetAbsorption tag => .ofEdit t (t.resetAbsorption tag)
  | .name tag depth name => .ofEdit t (t.name tag depth name)

/-- The tree after some operations, whether they succeeded or not. -/
def run (t : Tree) (actions : List Action) : Tree :=
  actions.foldl (fun t action => (t.perform action).state) t

variable {t : Tree} {ctx : Context}

/-! ## 2. Every tree is well-formed -/

theorem wellFormed_perform (h : t.WellFormed) (action : Action) :
    (t.perform action).state.WellFormed := by
  cases action with
  | insertChild ctx child => exact wellFormed_insertChild h child
  | access ctx access => exact wellFormed_access h ctx access
  | free ctx tag => exact wellFormed_free h tag
  | resetAbsorption tag =>
    rw [perform]
    cases ht : t.resetAbsorption tag with
    | error e => exact h
    | ok t' => exact wellFormed_resetAbsorption h ht
  | name tag depth name =>
    rw [perform]
    cases ht : t.name tag depth name with
    | error e => exact h
    | ok t' => exact wellFormed_name h ht

theorem wellFormed_run (h : t.WellFormed) (actions : List Action) :
    (t.run actions).WellFormed := by
  induction actions generalizing t with
  | nil => exact h
  | cons action actions ih => exact ih (wellFormed_perform h action)

/-! ## 3. Nodes stay where they are -/

theorem SameNodes.grows {t' : Tree} (h : t.SameNodes t') : t.arena.Grows t'.arena :=
  h.arena_eq ▸ .refl _

theorem grows_insertChild (h : t.WellFormed) (c : NewChild) :
    t.arena.Grows (t.insertChild ctx c).state.arena := by
  rcases state_insertChild h ctx c with
    heq | ⟨t', h', hsame, heq | ⟨parent, tags, i, -, hins, heq⟩⟩
  · rw [heq]
    exact .refl _
  · rw [heq]
    exact hsame.grows
  · obtain rfl := h'.toIndexed.index_eq_width hins
    rw [heq]
    refine hsame.grows.trans (.trans ?_ (extends_tidied _).grows)
    rw [attach_eq]
    exact (Arena.grows_addChild t'.arena parent (c.node parent)).trans
      (Arena.sameSkeleton_modifyAll _ _ (f := .weaken c.absorption) fun _ => rfl).grows

/-- **No operation takes a node away**, or gives its index to another tag or parent. -/
theorem grows_perform (h : t.WellFormed) (action : Action) :
    t.arena.Grows (t.perform action).state.arena := by
  cases action with
  | insertChild ctx child => exact grows_insertChild h child
  | access ctx access => exact (sameNodes_access t ctx access).grows
  | free ctx tag => exact (sameNodes_free t ctx tag).grows
  | resetAbsorption tag =>
    rw [perform]
    cases ht : t.resetAbsorption tag with
    | error e => exact .refl _
    | ok t' => exact (extends_resetAbsorption ht).grows
  | name tag depth name =>
    rw [perform]
    cases ht : t.name tag depth name with
    | error e => exact .refl _
    | ok t' => exact (extends_name ht).grows

theorem grows_run (h : t.WellFormed) (actions : List Action) :
    t.arena.Grows (t.run actions).arena := by
  induction actions generalizing t with
  | nil => exact .refl _
  | cons action actions ih =>
    exact (grows_perform h action).trans (ih (wellFormed_perform h action))

/-! ## 4. The agreement in full -/

/-- The tag that the tree was made with is the root's for ever. -/
theorem owner?_run (root : Tag) (size : Nat) (settings : Settings) (actions : List Action) :
    ((new root size settings).run actions).owner? = some root := by
  obtain ⟨n, hn, htag, -⟩ :=
    grows_run (wellFormed_new root size settings) actions _ _ (get?_root_new root size settings)
  rw [owner?, hn]
  exact congrArg some htag

/-- **The parts of a tree agree, whatever was done to it.**  The registry numbers the tags of the
nodes without a gap, the root first; the nodes are linked to one tree, in which a parent is older
than its children and lists each of them once; and in every run there are states of nodes only,
and one of the root. -/
theorem agreement_run (root : Tag) (size : Nat) (settings : Settings) (actions : List Action) :
    let t := (new root size settings).run actions
    (∀ tag, t.contains tag = true ↔ ∃ i, i < t.tags.size ∧ t.tags.index? tag = some i) ∧
    (∀ i, i < t.tags.size → ∃! tag, t.tags.index? tag = some i) ∧
    (∀ i, (t.arena.get? i).isSome ↔ i < t.tags.size) ∧
    (∀ tag i, t.tags.index? tag = some i ↔ ∃ n, t.arena.get? i = some n ∧ n.tag = tag) ∧
    (t.owner? = some root ∧ t.tags.index? root = some Arena.root) ∧
    (∀ i n, t.arena.get? i = some n → (n.parent = none ↔ i = Arena.root)) ∧
    (∀ i n p, t.arena.get? i = some n → n.parent = some p → p < i) ∧
    (∀ p m c, t.arena.get? p = some m →
      m.children.count c = if (t.arena.get? c).bind Node.parent = some p then 1 else 0) ∧
    (∀ i, i < t.tags.size → Relation.ReflTransGen t.arena.Lists Arena.root i) ∧
    ∀ r ∈ t.bytes.runs, (∀ i, (r.value.get? i).isSome → i < t.tags.size) ∧
      (r.value.get? Arena.root).isSome := by
  intro t
  have h : t.WellFormed := wellFormed_run (wellFormed_new root size settings) actions
  have howner : t.owner? = some root := owner?_run root size settings actions
  refine ⟨fun tag => ?_, fun i hi => ?_, fun i => h.isSome_get?_iff, fun tag i =>
    h.index?_eq_some_iff, ⟨howner, ?_⟩, fun i n => h.wellLinked.parent_eq_none_iff,
    fun i n p hn hp => h.wellLinked.parent_lt ⟨n, hn, hp⟩, fun p m c =>
    h.wellLinked.count_children, fun i hi => ?_, fun r hr => ?_⟩
  · rw [contains, Registry.contains_iff, h.mem_tags_iff]
    refine exists_congr fun i => ?_
    rw [h.index?_eq_some_iff, ← h.isSome_get?_iff]
    refine ⟨?_, And.right⟩
    rintro ⟨n, hn, rfl⟩
    exact ⟨Option.isSome_of_eq_some hn, n, hn, rfl⟩
  · obtain ⟨n, hn⟩ := Option.isSome_iff_exists.mp (h.isSome_get?_iff.mpr hi)
    exact ⟨n.tag, h.index?_tag hn, fun tag htag => Registry.eq_of_index? htag (h.index?_tag hn)⟩
  · obtain ⟨n, hn, rfl⟩ := Option.map_eq_some_iff.mp howner
    exact h.index?_tag hn
  · rw [← h.width_eq] at hi
    exact h.wellLinked.reflTransGen_lists hi
  · rw [← h.width_eq]
    exact ⟨fun _ => (h.covers_of_mem hr).lt_width, (h.covers_of_mem hr).isSome_root⟩

end Tree

end TreeBorrows
