import Mathlib.Data.Finset.Image
import Mathlib.Order.Interval.Finset.Nat
import TrieDb.Base.EState
import TrieDb.Base.Paths
import TrieDb.Context
import TrieDb.Engine.PageOps
import TrieDb.Page.Slotted

/-!
# The consistency checker

`src/storage/debug.rs:505–772`: the traversal from the root page, which looks for cycles, for
pages newer than the page that points to them and for pointers to nothing, and the comparison of the
pages it reaches with the orphan list and the range of page ids. What is written to the report is
kept as a list of lines. The recursion has an explicit bound on its depth.
-/

namespace TrieDb.Engine

open Base Meta Relation

/-- The errors of a check. `panic` stands for a failed `unwrap`, `outOfFuel` for a recursion cut
off by the model. -/
inductive CheckError where
  | io (message : String)
  | pageError (e : PageError)
  | debugError (message : String)
  | panic
  | outOfFuel
  deriving DecidableEq

/-- The two sets that `consistency_check_helper` changes. -/
structure Walk where
  reachable : Finset Nat
  visitedNodes : Finset (Nat × Nat)

/-- A traversal. The sets are given up when it fails. -/
abbrev CheckM := EStateM CheckError Walk

/-- Run an access to the pages. -/
def liftCheck {α : Type} (x : Except PageError α) : CheckM α :=
  match x with
  | .ok a => pure a
  | .error e => throw (.pageError e)

/-- `Page::snapshot_id`; a page that can be read is occupied. -/
def snapshotId (page : Page Cells) : Nat := page.state.snapshotId.getD 0

/-- The pointers that a traversal follows. -/
def childPointers (node : Node) : List Pointer :=
  match node.kind with
  | .accountLeaf _ _ _ storageRoot => storageRoot.toList
  | .branch children => (List.finRange 16).filterMap children
  | .storageLeaf _ => []

/-- `get_slotted_page_and_index`, with a page given by its id. -/
def getSlottedPageAndIndex (m : PageManager Cells) (pointer : Pointer) (current : Nat) :
    CheckM (Nat × Nat) :=
  match pointer.location with
  | .cell cellIndex => pure (current, cellIndex)
  | .page pageId => do
    let _ ← liftCheck (m.get pageId)
    pure (pageId, 0)

/-- The error of a node that is met again on the way down. -/
def cycleDetected (pageId cellIndex : Nat) : CheckError :=
  .debugError (s!"Cycle detected in trie: node (page_id={pageId}, cell_index={cellIndex}) " ++
    "has already been visited")

/-- The error of a page that is newer than the page pointing to it. -/
def snapshotViolation (pageId current parent : Nat) : CheckError :=
  .debugError (s!"Snapshot ID consistency violation: page {pageId} has snapshot ID {current} " ++
    s!"which is greater than parent snapshot ID {parent}")

/-- One round of the loop over the children: a child on another page makes its page reachable. -/
def checkChild (m : PageManager Cells) (check : Nat → Nat → CheckM Unit) (pageId : Nat)
    (child : Pointer) : CheckM Unit := do
  let new ← getSlottedPageAndIndex m child pageId
  if new.1 ≠ pageId then
    modify fun w ↦ { w with reachable := insert new.1 w.reachable }
    check new.1 new.2
  else check pageId new.2

/-- `consistency_check_helper`. -/
def consistencyCheckHelper (m : PageManager Cells) : Nat → Nat → Nat → Nat → CheckM Unit
  | 0, _, _, _ => throw .outOfFuel
  | fuel + 1, pageId, cellIndex, parentSnapshotId => do
    if (pageId, cellIndex) ∈ (← get).visitedNodes then throw (cycleDetected pageId cellIndex)
    else
      modify fun w ↦ { w with visitedNodes := insert (pageId, cellIndex) w.visitedNodes }
      let page ← liftCheck (m.get pageId)
      if parentSnapshotId < snapshotId page then
        modify fun w ↦ { w with visitedNodes := w.visitedNodes.erase (pageId, cellIndex) }
        throw (snapshotViolation pageId (snapshotId page) parentSnapshotId)
      else
        let node ← liftCheck (page.contents.getValue cellIndex)
        (childPointers node).forM (checkChild m
          (fun pageId cellIndex ↦ consistencyCheckHelper m fuel pageId cellIndex (snapshotId page))
          pageId)
        -- backtrack
        modify fun w ↦ { w with visitedNodes := w.visitedNodes.erase (pageId, cellIndex) }

/-- `consistency_check`. -/
def consistencyCheck (m : PageManager Cells) (fuel : Nat) (rootNodePageId : Option Nat) :
    Except CheckError (Finset Nat) :=
  match rootNodePageId with
  | none => .ok ∅
  | some root =>
    let check : CheckM Unit := do
      let page ← liftCheck (m.get root)
      consistencyCheckHelper m fuel root 0 (snapshotId page)
    match check ⟨{root}, ∅⟩ with
    | .ok _ w => .ok w.reachable
    | .error e _ => .error e

/-- `PageId::new` succeeds. -/
def isPageId (id : Nat) : Bool := decide (1 ≤ id ∧ id ≤ PageManager.maxPageId)

/-- `get_dirty_pages`. -/
def getDirtyPages (m : PageManager Cells) : Finset Nat :=
  (Finset.Icc 1 m.pageCount).filter fun id ↦ isPageId id ∧ (m.pages id).state.isDirty = true

/-- The lines of a report. -/
inductive ReportLine where
  | metadataCorrupted
  | reachableOrphanedPages (ids : Finset Nat)
  | unreachablePages (ids : Finset Nat)
  | passed

/-- The part of `database_consistency_check` that compares the pages reached, dirty pages included,
with the orphan list and the page ids below the page count. -/
def comparePages (reachable orphaned : Finset Nat) (pageCount : Nat) :
    Except CheckError Unit × List ReportLine :=
  let reachableOrphaned := orphaned ∩ reachable
  let allPages := Finset.Ico 1 pageCount
  if allPages.filter (isPageId · = false) ≠ ∅ then (.error .panic, [])
  else
    let unreachable := allPages \ (reachable ∪ orphaned)
    let errors := (if reachableOrphaned = ∅ then []
        else [ReportLine.reachableOrphanedPages reachableOrphaned]) ++
      (if unreachable = ∅ then [] else [.unreachablePages unreachable])
    if errors.isEmpty then (.ok (), [.passed])
    else (.error (.io "Database consistency check failed: inconsistencies detected"), errors)

/-- `database_consistency_check` of a debugger on the pages `m`, on the metadata file and the
engine of its arguments. -/
def databaseConsistencyCheck [SlotHash] (m : PageManager Cells) (fuel : Nat) (file : MetaFile)
    (storageEngine : StorageEngine Cells) : Except CheckError Unit × List ReportLine :=
  match MetadataManager.fromFile file with
  | .error .corrupted => (.error (.io "Metadata file corrupted"), [.metadataCorrupted])
  | .ok metaManager =>
    let root := TransactionContext.rootOfRaw metaManager.active.slot.rootNodePageId
    match consistencyCheck m fuel root with
    | .error e => (.error e, [])
    | .ok reachable =>
      let orphaned := metaManager.orphanPages.map OrphanPage.pageId
      if orphaned.all isPageId then
        comparePages (reachable ∪ getDirtyPages m) orphaned.toFinset
          storageEngine.pageManager.pageCount
      else (.error .panic, [])

/-! ### The graph of a file -/

section
variable {m : PageManager Cells} {n s t : Nat × Nat}

/-- The node in a cell of a page that can be read. -/
def nodeAt (m : PageManager Cells) (n : Nat × Nat) : Option Node :=
  match m.get n.1 with
  | .ok page => page.contents.cell n.2
  | .error _ => none

/-- Where a pointer on a page leads. -/
def target (pageId : Nat) (pointer : Pointer) : Nat × Nat :=
  match pointer.location with
  | .cell cellIndex => (pageId, cellIndex)
  | .page id => (id, 0)

/-- A node points to another one. -/
def Edge (m : PageManager Cells) (s t : Nat × Nat) : Prop :=
  ∃ node pointer, nodeAt m s = some node ∧ pointer ∈ childPointers node ∧ target s.1 pointer = t

/-- The snapshot of a page. -/
def snapshotAt (m : PageManager Cells) (pageId : Nat) : Nat := snapshotId (m.pages pageId)

/-- The cells of all pages. -/
def places (m : PageManager Cells) : Finset (Nat × Nat) :=
  (Finset.range (m.pageCount + 1)).biUnion fun id ↦
    (Finset.range (m.pages id).contents.length).image fun cell ↦ (id, cell)

/-- What is wrong below a root node. -/
inductive Fault (m : PageManager Cells) (root : Nat × Nat) : Prop
  | cycle {t : Nat × Nat} (ht : Below (Edge m) root t) (hcycle : TransGen (Edge m) t t)
  | snapshot {s t : Nat × Nat} (hs : Below (Edge m) root s) (hst : Edge m s t)
      (hlt : snapshotAt m s.1 < snapshotAt m t.1)
  | dangling {t : Nat × Nat} (ht : Below (Edge m) root t) (hdead : nodeAt m t = none)

/-- A page with a node below the root. -/
def Reached (m : PageManager Cells) (root : Nat × Nat) (id : Nat) : Prop :=
  ∃ cell, Below (Edge m) root (id, cell)

/-- The node can be read and is on no older page than those it points to. -/
structure Sane (m : PageManager Cells) (s : Nat × Nat) : Prop where
  live : nodeAt m s ≠ none
  ordered : ∀ t, Edge m s t → snapshotAt m t.1 ≤ snapshotAt m s.1

/-- What a traversal must find below a node, with the nodes above it and the snapshot of the page it
comes from. -/
structure Clean (m : PageManager Cells) (above : Set (Nat × Nat)) (parent : Nat) (n : Nat × Nat) :
    Prop where
  uncrossed : Uncrossed (Edge m) above n
  sane : ∀ t, Below (Edge m) n t → Sane m t
  snapshot : snapshotAt m n.1 ≤ parent

/-- A descent goes on from a node that is clean. -/
private theorem clean_iff {above : Set (Nat × Nat)} {parent : Nat} : Clean m above parent n ↔
    n ∉ above ∧ nodeAt m n ≠ none ∧ snapshotAt m n.1 ≤ parent ∧
      ∀ c, Edge m n c → Clean m (insert n above) (snapshotAt m n.1) c := by
  constructor
  · rintro ⟨huncrossed, hsane, hle⟩
    obtain ⟨hn, hc⟩ := uncrossed_iff.mp huncrossed
    obtain ⟨hlive, hbelow⟩ := forall_below_iff.mp hsane
    exact ⟨hn, hlive.live, hle, fun c hnc ↦ ⟨hc c hnc, hbelow c hnc, hlive.ordered c hnc⟩⟩
  · rintro ⟨hn, hlive, hle, hc⟩
    refine ⟨uncrossed_iff.mpr ⟨hn, fun c hnc ↦ (hc c hnc).uncrossed⟩, forall_below_iff.mpr ?_, hle⟩
    exact ⟨⟨hlive, fun c hnc ↦ (hc c hnc).snapshot⟩, fun c hnc ↦ (hc c hnc).sane⟩

/-- A root is clean exactly when nothing is wrong below it. -/
private theorem clean_root_iff : Clean m ∅ (snapshotAt m n.1) n ↔ ¬ Fault m n := by
  constructor
  · rintro ⟨huncrossed, hsane, -⟩ hfault
    cases hfault with
    | cycle ht hcycle => exact (huncrossed _ ht).2 hcycle
    | snapshot hs hst hlt => exact Nat.not_le_of_lt hlt ((hsane _ hs).ordered _ hst)
    | dangling ht hdead => exact (hsane _ ht).live hdead
  · intro hfault
    refine ⟨fun t ht ↦ ⟨id, fun hcycle ↦ hfault (.cycle ht hcycle)⟩, fun t ht ↦ ⟨?_, ?_⟩,
      Nat.le_refl _⟩
    · exact fun hdead ↦ hfault (.dangling ht hdead)
    · exact fun c hc ↦ Nat.le_of_not_lt fun hlt ↦ hfault (.snapshot ht hc hlt)

private theorem nodeAt_of_get {id : Nat} {page : Page Cells} (h : m.get id = .ok page)
    (cell : Nat) : nodeAt m (id, cell) = page.contents.cell cell := by
  simp [nodeAt, h]

private theorem nodeAt_of_error {id : Nat} {e : PageError} (h : m.get id = .error e) (cell : Nat) :
    nodeAt m (id, cell) = none := by
  simp [nodeAt, h]

private theorem mem_places {node : Node} (h : nodeAt m n = some node) : n ∈ places m := by
  obtain ⟨id, cell⟩ := n
  simp only [nodeAt] at h
  split at h
  · next page hget =>
    obtain ⟨hid, rfl, -⟩ := PageManager.get_eq_ok hget
    have hcell : cell < (m.pages id).contents.length := by
      by_contra hlt
      rw [Cells.cell_of_length_le (Nat.le_of_not_lt hlt)] at h
      cases h
    simp only [places, Finset.mem_biUnion, Finset.mem_range, Finset.mem_image]
    exact ⟨id, by omega, cell, hcell, rfl⟩
  · cases h

/-- Fewer cells are left below a node that is read. -/
private theorem card_places_insert {node : Node} {visited : Finset (Nat × Nat)}
    (h : nodeAt m n = some node) (hn : n ∉ visited) :
    (places m \ insert n visited).card < (places m \ visited).card := by
  apply Finset.card_lt_card
  rw [Finset.ssubset_iff_of_subset
    (Finset.sdiff_subset_sdiff le_rfl (Finset.subset_insert n visited))]
  exact ⟨n, by simp [mem_places h, hn], by simp⟩

end

/-! ### The traversal -/

/-- What a traversal does: the pages it finds are added and the visited nodes are as before. It
fails exactly when something is wrong, and not for want of fuel. -/
def Walks (x : CheckM Unit) (w : Walk) (ok : Prop) (found : Nat → Prop) : Prop :=
  Ensures x w
    (fun _ w' ↦ ok ∧ w'.visitedNodes = w.visitedNodes ∧
      ∀ id, id ∈ w'.reachable ↔ id ∈ w.reachable ∨ found id)
    (fun e _ ↦ ¬ ok ∧ e ≠ .outOfFuel)

/-- Traversals one after the other. -/
private theorem walks_forM {visit : Pointer → CheckM Unit} {ok : Pointer → Prop}
    {found : Pointer → Nat → Prop} {children : List Pointer} {w : Walk}
    (hvisit : ∀ child ∈ children, ∀ w', w'.visitedNodes = w.visitedNodes →
      w.reachable ⊆ w'.reachable → Walks (visit child) w' (ok child) (found child)) :
    Walks (children.forM visit) w (∀ child ∈ children, ok child)
      (fun id ↦ ∃ child ∈ children, found child id) := by
  induction children generalizing w with
  | nil => exact Ensures.pure (by simp)
  | cons child children ih =>
    have hchild := hvisit child List.mem_cons_self w rfl (Finset.Subset.refl _)
    show Walks (visit child >>= fun _ ↦ children.forM visit) w _ _
    apply Ensures.bind
    apply hchild.mono
    · rintro - w₁ ⟨hok, hvisited, hreach⟩
      have hsub : w.reachable ⊆ w₁.reachable := fun id hid ↦ (hreach id).mpr (.inl hid)
      have hrest := @ih w₁ fun c hc w' hw' hsub' ↦
        hvisit c (List.mem_cons_of_mem _ hc) w' (hw'.trans hvisited) (hsub.trans hsub')
      apply hrest.mono
      · rintro - w₂ ⟨hoks, hvisited₂, hreach₂⟩
        refine ⟨by simpa using ⟨hok, hoks⟩, hvisited₂.trans hvisited, fun id ↦ ?_⟩
        rw [hreach₂, hreach]
        simp [or_assoc]
      · rintro e - ⟨hoks, he⟩
        exact ⟨fun h ↦ hoks fun c hc ↦ h c (List.mem_cons_of_mem _ hc), he⟩
    · rintro e - ⟨hok, he⟩
      exact ⟨fun h ↦ hok (h child List.mem_cons_self), he⟩

section
variable {m : PageManager Cells}

private theorem getSlottedPageAndIndex_eq (child : Pointer) (pageId : Nat) (w : Walk) :
    getSlottedPageAndIndex m child pageId w = .ok (target pageId child) w ∨
      ∃ e, getSlottedPageAndIndex m child pageId w = .error (.pageError e) w ∧
        nodeAt m (target pageId child) = none := by
  simp only [getSlottedPageAndIndex, target]
  cases child.location with
  | cell cellIndex => exact .inl rfl
  | page id =>
    cases hget : m.get id with
    | ok page => exact .inl (by simp [liftCheck, hget])
    | error e => exact .inr ⟨e, by simp [liftCheck, hget], nodeAt_of_error hget 0⟩

/-- A child is entered with its page among the reachable ones. -/
private theorem checkChild_walks {check : Nat → Nat → CheckM Unit} {pageId : Nat} {child : Pointer}
    {w : Walk} {ok : Prop} {found : Nat → Prop} (hpage : pageId ∈ w.reachable)
    (hok : ok → nodeAt m (target pageId child) ≠ none)
    (hcheck : ∀ w', w'.visitedNodes = w.visitedNodes → (target pageId child).1 ∈ w'.reachable →
      Walks (check (target pageId child).1 (target pageId child).2) w' ok found) :
    Walks (checkChild m check pageId child) w ok
      (fun id ↦ id = (target pageId child).1 ∨ found id) := by
  rcases @getSlottedPageAndIndex_eq m child pageId w with heq | ⟨e, heq, hdead⟩
  · obtain ⟨w₁, hrun, hvisited, hreach⟩ : ∃ w₁, checkChild m check pageId child w =
        check (target pageId child).1 (target pageId child).2 w₁ ∧
        w₁.visitedNodes = w.visitedNodes ∧
        ∀ id, id ∈ w₁.reachable ↔ id ∈ w.reachable ∨ id = (target pageId child).1 := by
      simp only [checkChild, bind_apply, heq]
      by_cases hnew : (target pageId child).1 ≠ pageId
      · rw [if_pos hnew]
        exact ⟨_, rfl, rfl, fun id ↦ by rw [Finset.mem_insert, or_comm]⟩
      · rw [if_neg hnew]
        rw [not_not] at hnew
        refine ⟨w, by rw [hnew], rfl, fun id ↦ (or_iff_left_of_imp ?_).symm⟩
        rintro rfl
        rwa [hnew]
    simp only [Walks, Ensures, hrun]
    apply (hcheck w₁ hvisited ((hreach _).mpr (.inr rfl))).mono
    · rintro - w₂ ⟨h, hvisited₂, hreach₂⟩
      refine ⟨h, hvisited₂.trans hvisited, fun id ↦ ?_⟩
      rw [hreach₂, hreach, or_assoc]
    · exact fun e _ he ↦ he
  · simp only [Walks, Ensures, checkChild, bind_apply, heq]
    exact ⟨fun h ↦ hok h hdead, by simp⟩

/-- The nodes strictly below a node are those below the targets of its pointers. -/
private theorem transGen_edge_iff {n t : Nat × Nat} {node : Node} (hnode : nodeAt m n = some node) :
    TransGen (Edge m) n t ↔ ∃ child ∈ childPointers node, Below (Edge m) (target n.1 child) t := by
  rw [TransGen.head'_iff]
  constructor
  · rintro ⟨-, ⟨node', child, hnode', hchild, rfl⟩, ht⟩
    rw [hnode] at hnode'
    cases hnode'
    exact ⟨child, hchild, ht⟩
  · rintro ⟨child, hchild, ht⟩
    exact ⟨_, ⟨node, child, hnode, hchild, rfl⟩, ht⟩

/-- The loop over the children of a node that is read. -/
private theorem children_walk {fuel : Nat} {n : Nat × Nat} {node : Node} {w : Walk}
    (hnode : nodeAt m n = some node) (hn : n.1 ∈ w.reachable)
    (hcheck : ∀ c w', w'.visitedNodes = w.visitedNodes → c.1 ∈ w'.reachable →
      Walks (consistencyCheckHelper m fuel c.1 c.2 (snapshotAt m n.1)) w'
        (Clean m w'.visitedNodes (snapshotAt m n.1) c)
        (fun id ↦ ∃ t, TransGen (Edge m) c t ∧ t.1 = id)) :
    Walks ((childPointers node).forM (checkChild m
        (fun pageId cellIndex ↦ consistencyCheckHelper m fuel pageId cellIndex (snapshotAt m n.1))
        n.1)) w
      (∀ c, Edge m n c → Clean m w.visitedNodes (snapshotAt m n.1) c)
      (fun id ↦ ∃ t, TransGen (Edge m) n t ∧ t.1 = id) := by
  have hloop : Walks ((childPointers node).forM (checkChild m
        (fun pageId cellIndex ↦ consistencyCheckHelper m fuel pageId cellIndex (snapshotAt m n.1))
        n.1)) w
      (∀ child ∈ childPointers node,
        Clean m w.visitedNodes (snapshotAt m n.1) (target n.1 child))
      (fun id ↦ ∃ child ∈ childPointers node, id = (target n.1 child).1 ∨
        ∃ t, TransGen (Edge m) (target n.1 child) t ∧ t.1 = id) := by
    apply walks_forM
    intro child _ w' hvisited hsub
    apply checkChild_walks (hsub hn)
    · exact fun h ↦ (clean_iff.mp h).2.1
    · intro w'' hvisited' hmem
      have hvisited'' := hvisited'.trans hvisited
      simpa only [hvisited''] using hcheck (target n.1 child) w'' hvisited'' hmem
  apply hloop.mono
  · rintro - w' ⟨hclean, hvisited, hreach⟩
    refine ⟨?_, hvisited, fun id ↦ ?_⟩
    · rintro - ⟨node', child, hnode', hchild, rfl⟩
      rw [hnode] at hnode'
      cases hnode'
      exact hclean child hchild
    · rw [hreach]
      apply or_congr_right
      simp only [transGen_edge_iff hnode, reflTransGen_iff_eq_or_transGen]
      constructor
      · rintro ⟨child, hchild, rfl | ⟨t, ht, rfl⟩⟩
        · exact ⟨_, ⟨child, hchild, .inl rfl⟩, rfl⟩
        · exact ⟨t, ⟨child, hchild, .inr ht⟩, rfl⟩
      · rintro ⟨t, ⟨child, hchild, rfl | ht⟩, rfl⟩
        · exact ⟨child, hchild, .inl rfl⟩
        · exact ⟨child, hchild, .inr ⟨t, ht, rfl⟩⟩
  · rintro e - ⟨hclean, he⟩
    exact ⟨fun h ↦ hclean fun child hchild ↦ h _ ⟨node, child, hnode, hchild, rfl⟩, he⟩

/-- The traversal of a node, with as much fuel as there are cells off the path to it. -/
private theorem consistencyCheckHelper_walks (fuel : Nat) (n : Nat × Nat) (parent : Nat) (w : Walk)
    (hfuel : (places m \ w.visitedNodes).card < fuel) (hn : n.1 ∈ w.reachable) :
    Walks (consistencyCheckHelper m fuel n.1 n.2 parent) w (Clean m w.visitedNodes parent n)
      (fun id ↦ ∃ t, TransGen (Edge m) n t ∧ t.1 = id) := by
  induction fuel generalizing n parent w with
  | zero => omega
  | succ fuel ih =>
    rw [clean_iff]
    unfold consistencyCheckHelper
    apply Ensures.bind
    apply Ensures.get
    by_cases hmem : n ∈ w.visitedNodes
    · rw [if_pos hmem]
      exact Ensures.throw ⟨fun h ↦ h.1 hmem, by simp [cycleDetected]⟩
    · rw [if_neg hmem]
      apply Ensures.bind
      apply ensures_modify
      apply Ensures.bind
      cases hget : m.get n.1 with
      | error e => exact Ensures.throw ⟨fun h ↦ h.2.1 (nodeAt_of_error hget n.2), by simp⟩
      | ok page =>
        obtain ⟨-, rfl, -⟩ := PageManager.get_eq_ok hget
        apply Ensures.pure
        by_cases hlt : parent < snapshotId (m.pages n.1)
        · rw [if_pos hlt]
          apply Ensures.bind
          apply ensures_modify
          exact Ensures.throw ⟨fun h ↦ Nat.not_le_of_lt hlt h.2.2.1, by simp [snapshotViolation]⟩
        · rw [if_neg hlt]
          apply Ensures.bind
          cases hcell : (m.pages n.1).contents.cell n.2 with
          | none =>
            simp only [Cells.getValue, hcell]
            refine Ensures.throw ⟨fun h ↦ h.2.1 ?_, by simp⟩
            rw [nodeAt_of_get hget, hcell]
          | some node =>
            have hnode : nodeAt m n = some node := by rw [nodeAt_of_get hget, hcell]
            simp only [Cells.getValue, hcell]
            apply Ensures.pure
            apply Ensures.bind
            have hcard : (places m \ insert n w.visitedNodes).card < fuel := by
              have := card_places_insert hnode hmem
              omega
            have hloop := @children_walk m fuel n node
              { w with visitedNodes := insert n w.visitedNodes } hnode hn fun c w' hvisited hc ↦
                ih c _ w' (by rwa [hvisited]) hc
            apply hloop.mono
            · rintro - w' ⟨hclean, hvisited, hreach⟩
              apply ensures_modify
              refine ⟨⟨hmem, by simp [hnode], Nat.le_of_not_lt hlt, ?_⟩, ?_, hreach⟩
              · simpa using hclean
              · simp only [hvisited]
                exact Finset.erase_insert hmem
            · rintro e - ⟨hclean, he⟩
              refine ⟨fun h ↦ hclean ?_, he⟩
              simpa using h.2.2.2

/-- Something is wrong below the root page. -/
def FaultyRoot (m : PageManager Cells) (root : Option Nat) : Prop := ∃ r ∈ root, Fault m (r, 0)

/-- A page that is reachable from the root page. -/
def ReachedFrom (m : PageManager Cells) (root : Option Nat) (id : Nat) : Prop :=
  ∃ r ∈ root, Reached m (r, 0) id

/-- The outcome of a traversal from the root page. -/
theorem consistencyCheck_spec {fuel : Nat} (root : Option Nat) (hfuel : (places m).card < fuel) :
    (∃ ids, consistencyCheck m fuel root = .ok ids ∧ ¬ FaultyRoot m root ∧
      ∀ id, id ∈ ids ↔ ReachedFrom m root id) ∨
    ∃ e, consistencyCheck m fuel root = .error e ∧ FaultyRoot m root ∧ e ≠ .outOfFuel := by
  cases root with
  | none => exact .inl ⟨∅, rfl, by simp [FaultyRoot], by simp [ReachedFrom]⟩
  | some root =>
    have hwalk := consistencyCheckHelper_walks fuel (root, 0) (snapshotAt m root) ⟨{root}, ∅⟩
      (by simpa using hfuel) (Finset.mem_singleton_self root)
    have hclean : Clean m ∅ (snapshotAt m root) (root, 0) ↔ ¬ Fault m (root, 0) :=
      @clean_root_iff m (root, 0)
    rw [Finset.coe_empty, hclean] at hwalk
    simp only [consistencyCheck, FaultyRoot, ReachedFrom, Option.mem_some_iff, exists_eq_left']
    cases hget : m.get root with
    | error e =>
      refine .inr ⟨.pageError e, by simp [liftCheck], .dangling .refl (nodeAt_of_error hget 0), ?_⟩
      simp
    | ok page =>
      obtain ⟨-, rfl, -⟩ := PageManager.get_eq_ok hget
      simp only [liftCheck, bind_apply, pure_apply]
      cases hrun : consistencyCheckHelper m fuel root 0 (snapshotAt m root) ⟨{root}, ∅⟩ with
      | ok _ w =>
        obtain ⟨hfault, -, hreach⟩ := hwalk.ok hrun
        refine .inl ⟨w.reachable, by rw [snapshotAt] at hrun; rw [hrun], hfault, fun id ↦ ?_⟩
        rw [hreach, Finset.mem_singleton, Reached]
        simp only [reflTransGen_iff_eq_or_transGen]
        constructor
        · rintro (rfl | ⟨t, ht, rfl⟩)
          · exact ⟨0, .inl rfl⟩
          · exact ⟨t.2, .inr ht⟩
        · rintro ⟨cell, heq | ht⟩
          · exact .inl (Prod.ext_iff.mp heq).1
          · exact .inr ⟨_, ht, rfl⟩
      | error e w =>
        obtain ⟨hfault, he⟩ := hwalk.error hrun
        exact .inr ⟨e, by rw [snapshotAt] at hrun; rw [hrun], not_not.mp hfault, he⟩

/-- The traversal ends with at most as many nested calls as there are cells. It fails exactly when a
cycle, a page newer than the page pointing to it or a pointer to nothing is below the root; else it
returns the pages that are reachable from the root. -/
theorem consistencyCheck_exact (m : PageManager Cells) (fuel : Nat) (root : Option Nat)
    (hfuel : (places m).card < fuel) :
    consistencyCheck m fuel root ≠ .error .outOfFuel ∧
      ((∃ e, consistencyCheck m fuel root = .error e) ↔ FaultyRoot m root) ∧
      ∀ ids, consistencyCheck m fuel root = .ok ids → ∀ id, id ∈ ids ↔ ReachedFrom m root id := by
  obtain ⟨ids, hrun, hfault, hids⟩ | ⟨e, hrun, hfault, he⟩ := consistencyCheck_spec root hfuel
  · rw [hrun]
    refine ⟨by simp, by simpa using hfault, ?_⟩
    intro ids' h
    cases h
    exact hids
  · rw [hrun]
    refine ⟨by simpa using he, by simpa using hfault, ?_⟩
    intro ids h
    cases h

end

/-- A branch on page 1 with two pointers to the given places; page 2 holds a leaf. -/
def twoPointers (left right : Location) : PageManager Cells where
  pages id :=
    if id = 1 then
      ⟨.occupied 1, [some ⟨[], .branch fun i ↦
        if i = 0 then some ⟨left, .raw []⟩ else if i = 1 then some ⟨right, .raw []⟩ else none⟩]⟩
    else ⟨.occupied 1, [some ⟨[], .storageLeaf 1⟩]⟩
  pageCount := 2
  capacity := 2

/-- Two pointers to one page are no cycle; a pointer back to the branch is one. -/
theorem consistencyCheck_exact_shared :
    ¬ FaultyRoot (twoPointers (.page 2) (.page 2)) (some 1) ∧
      ReachedFrom (twoPointers (.page 2) (.page 2)) (some 1) 2 ∧
      FaultyRoot (twoPointers (.page 2) (.cell 0)) (some 1) := by
  have hshared := consistencyCheck_exact (twoPointers (.page 2) (.page 2)) 4 (some 1) (by decide)
  have hcycle := consistencyCheck_exact (twoPointers (.page 2) (.cell 0)) 4 (some 1) (by decide)
  have hok : consistencyCheck (twoPointers (.page 2) (.page 2)) 4 (some 1) = .ok {2, 1} := rfl
  refine ⟨?_, ?_, ?_⟩
  · rw [← hshared.2.1, hok]
    simp
  · exact (hshared.2.2 _ hok 2).mp (by decide)
  · exact hcycle.2.1.mp ⟨cycleDetected 1 0, rfl⟩

end TrieDb.Engine
