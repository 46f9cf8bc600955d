import TrieDb.Layout.PageOps

/-!
# Copying the page of a trie

`get_mut_clone` makes the root page of a trie a page of this snapshot: it is written in place if it
is one already, and copied otherwise, where the nodes on it move to the copy and the page they were
on is orphaned.
-/

namespace TrieDb.Layout

open Meta Base Engine Trie

variable {s s' : State Cells} {p q : Nat} {P : Nat → State Cells → Prop}

/-! ### Giving a page back -/

/-- The state after a `PageMut` is dropped. -/
abbrev release (s : State Cells) (p : Nat) : State Cells :=
  s.setPages (s.engine.pageManager.drop p)

private theorem pages_release (q : Nat) :
    (release s p).engine.pageManager.pages q =
      if q = p then ⟨(s.engine.pageManager.pages p).state.unsetDirty,
        (s.engine.pageManager.pages p).contents⟩ else s.engine.pageManager.pages q := by
  simp only [release, State.pageManager_setPages, PageManager.drop]
  by_cases hq : q = p
  · rw [if_pos hq, hq, PageManager.pages_setPage_self]
  · rw [if_neg hq, PageManager.pages_setPage_of_ne _ _ hq]

private theorem contents_release (q : Nat) : ((release s p).engine.pageManager.pages q).contents =
    (s.engine.pageManager.pages q).contents := by
  rw [pages_release]
  split
  · next h => rw [h]
  · rfl

/-- Giving up a page leaves the cells as they are. -/
@[simp] theorem cellAt_release (c : Loc) : cellAt (release s p) c = cellAt s c := by
  simp only [cellAt, contents_release]

/-- Giving up a page makes no other page dirty. -/
theorem dirty_release (q : Nat) : dirty (release s p) q = true → dirty s q = true ∧ q ≠ p := by
  intro hd
  simp only [dirty, Bool.and_eq_true, decide_eq_true_eq, pages_release] at hd ⊢
  split at hd
  · simp at hd
  · next h => exact ⟨hd, h⟩

/-- A page of this snapshot keeps its id when it is given back. -/
theorem stamp_release (hs : Ready s) (ho : old s p = false) (q : Nat) :
    stamp (release s p) q = stamp s q := by
  simp only [stamp, pages_release]
  split
  · next h =>
    subst h
    have hp : (s.engine.pageManager.pages q).state.snapshotId = some s.context.snapshotId :=
      old_eq_false.mp ho
    have hpos : s.context.snapshotId ≠ 0 := by
      have := hs.alive
      omega
    cases hst : (s.engine.pageManager.pages q).state with
    | unused => rfl
    | occupied n => rfl
    | dirty n =>
      rw [hst, PageState.snapshotId, Option.some.injEq] at hp
      subst hp
      simp [PageState.unsetDirty, hpos, PageState.snapshotId]
  · rfl

/-- Giving up a page of this transaction changes nothing that is kept. -/
theorem evolves_release {R : List Loc} (hs : Ready s) (ho : old s p = false)
    (hR : ∀ c ∈ R, ¬ Vacant s c.1 ∧ stamp s c.1 ≠ none) : Evolves s R (release s p) R where
  ready := ⟨hs.range, hs.alive, hs.nodup, hs.below⟩
  vacant _ h := h
  owned c hc := ⟨(hR c hc).1, by rw [stamp_release hs ho]; exact (hR c hc).2⟩
  new c hc := .inl hc
  frame c _ _ _ := cellAt_release c
  stamps q _ := stamp_release hs ho q
  kept q _ _ := contents_release q
  context := rfl
  alive := rfl
  list := .refl
  count := Nat.le_refl _

/-- Giving up a page neither lists nor loses one. -/
theorem balance_release {R : List Loc} : Balance s R (release s p) R :=
  .of_same rfl rfl rfl fun _ ↦ rfl

/-- A trie is held whether or not its pages are. -/
theorem Holds.release {t : Trie Loc} (h : Holds s t) (hs : Ready s) (ho : old s p = false) :
    Holds (release s p) t where
  stored := h.stored.congr fun c _ ↦ cellAt_release c
  nodup := h.nodup
  live c hc := ⟨(h.live c hc).1, by rw [stamp_release hs ho]; exact (h.live c hc).2⟩
  mono := Holds.oldBelow_congr (fun c _ ↦ by simp only [old, stamp_release hs ho]; rfl) h.mono

/-! ### Moving nodes to a copy of their page -/

/-- The cell that takes the place of a cell when page `q` is copied to page `p`. -/
def moveLoc (q p : Nat) (c : Loc) : Loc := if c.1 = q then (p, c.2) else c

/-- A cell of the page moves to the same cell of the copy. -/
@[simp] theorem moveLoc_self (i : Nat) : moveLoc q p (q, i) = (p, i) := if_pos rfl

private theorem moveLoc_of_ne {c : Loc} (h : c.1 ≠ q) : moveLoc q p c = c := if_neg h

/-- A moved cell keeps its index. -/
@[simp] theorem moveLoc_snd (c : Loc) : (moveLoc q p c).2 = c.2 := by
  simp only [moveLoc]
  split <;> rfl

section
variable {t : Trie Loc}

private theorem pointer?_moveLoc (h : (q, 0) ∉ t.tags) :
    (t.map (moveLoc q p)).pointer? = t.pointer? := by
  cases t with
  | empty => rfl
  | node c ref pre kind ch =>
    simp only [Trie.map, pointer?, nodeLocation, moveLoc_snd]
    by_cases hc : c.2 = 0
    · have : c.1 ≠ q := by
        intro hq
        exact h (mem_tags_node.mpr (.inl (Prod.ext hq hc).symm))
      rw [moveLoc_of_ne this]
    · simp [hc]

private theorem linked_moveLoc {r : Nat} (h : t.Linked r) (hq : (q, 0) ∉ t.tags) (i : Nat) :
    (t.map (moveLoc q p)).Linked (moveLoc q p (r, i)).1 := by
  cases t with
  | empty => exact linked_empty _
  | node c ref pre kind ch =>
    intro d hd hd0
    simp only [Trie.map, tag?, Option.some.injEq] at hd
    subst hd
    rw [moveLoc_snd] at hd0
    have hcr := h c rfl hd0
    simp only [moveLoc]
    by_cases hc : c.1 = q
    · rw [if_pos hc, if_pos (hcr ▸ hc)]
    · rw [if_neg hc, if_neg (hcr ▸ hc)]
      exact hcr

private theorem stored_moveLoc {f g : Loc → Option Node} (h : t.Stored f)
    (hg : ∀ c ∈ t.tags, g (moveLoc q p c) = f c)
    (hq : ∀ i, ∀ c ref pre kind ch, t = .node c ref pre kind ch → (q, 0) ∉ (ch i).tags) :
    (t.map (moveLoc q p)).Stored g := by
  induction t with
  | empty => trivial
  | node c ref pre kind ch ih =>
    have hqi (i : Fin 16) : (q, 0) ∉ (ch i).tags := hq i c ref pre kind ch rfl
    refine ⟨?_, fun i hi ↦ h.2.1 i fun he ↦ hi (map_eq_empty.mpr he), fun i ↦ ⟨?_, ?_⟩⟩
    · rw [hg c (mem_tags_node.mpr (.inl rfl)), h.1]
      congr 2
      funext i
      exact (pointer?_moveLoc (hqi i)).symm
    · exact linked_moveLoc (h.2.2 i).1 (hqi i) c.2
    · refine ih i (h.2.2 i).2 (fun d hd ↦ hg d (mem_tags_node.mpr (.inr ⟨i, hd⟩))) ?_
      intro j d ref' pre' kind' ch' he hmem
      refine hqi i ?_
      rw [he]
      exact mem_tags_node.mpr (.inr ⟨j, hmem⟩)

private theorem tags_map {α β : Type} (f : α → β) (t : Trie α) : (t.map f).tags = t.tags.map f := by
  induction t with
  | empty => rfl
  | node c ref pre kind ch ih => simp [Trie.map, tags, ih, List.map_flatMap]

end

section
variable {t : Trie Loc}

/-- Nodes of a page are reached through its first cell. -/
private theorem page_ne_of_root {f : Loc → Option Node} (h : t.Stored f)
    (hroot : ∀ c, t.tag? = some c → c.1 ≠ q) (hq : (q, 0) ∉ t.tags) :
    ∀ c ∈ t.tags, c.1 ≠ q := by
  induction t with
  | empty => simp
  | node c ref pre kind ch ih =>
    intro d hd
    rcases mem_tags_node.mp hd with rfl | ⟨i, hi⟩
    · exact hroot d rfl
    · have hqi : (q, 0) ∉ (ch i).tags := fun hm ↦ hq (mem_tags_node.mpr (.inr ⟨i, hm⟩))
      refine ih i (h.2.2 i).2 (fun e he hne ↦ ?_) hqi d hi
      by_cases he0 : e.2 = 0
      · refine hqi ?_
        cases hch : ch i with
        | empty =>
          rw [hch] at he
          cases he
        | node e' ref' pre' kind' ch' =>
          rw [hch] at he
          cases he
          exact mem_tags_node.mpr (.inl (Prod.ext hne he0).symm)
      · exact hroot c rfl ((h.2.2 i).1 e he he0 ▸ hne)

private theorem oldBelow_moveLoc (h : t.Stored (cellAt s)) (hm : OldBelow s t)
    (hq : ∀ i, ∀ c ref pre kind ch, t = .node c ref pre kind ch → (q, 0) ∉ (ch i).tags)
    (hp : old s' p = false) (hold : ∀ c ∈ t.tags, c.1 ≠ q → old s' c.1 = old s c.1) :
    OldBelow s' (t.map (moveLoc q p)) := by
  induction t with
  | empty => trivial
  | node c ref pre kind ch ih =>
    have hqi (i : Fin 16) : (q, 0) ∉ (ch i).tags := hq i c ref pre kind ch rfl
    refine ⟨fun ho i d hd ↦ ?_, fun i ↦ ih i (h.2.2 i).2 (hm.2 i) ?_ ?_⟩
    · by_cases hc : c.1 = q
      · obtain ⟨r, j⟩ := c
        simp only at hc
        subst hc
        rw [moveLoc_self, hp] at ho
        cases ho
      · rw [moveLoc_of_ne hc, hold c (mem_tags_node.mpr (.inl rfl)) hc] at ho
        -- no page below another one is the copied page
        have hne : ∀ e ∈ (ch i).tags, e.1 ≠ q := by
          refine page_ne_of_root (h.2.2 i).2 (fun e he hne ↦ ?_) (hqi i)
          by_cases he0 : e.2 = 0
          · refine hqi i ?_
            cases hch : ch i with
            | empty =>
              rw [hch] at he
              cases he
            | node e' ref' pre' kind' ch' =>
              rw [hch] at he
              cases he
              exact mem_tags_node.mpr (.inl (Prod.ext hne he0).symm)
          · exact hc ((h.2.2 i).1 e he he0 ▸ hne)
        rw [tags_map, List.mem_map] at hd
        obtain ⟨e, he, rfl⟩ := hd
        rw [moveLoc_of_ne (hne e he), hold e (mem_tags_node.mpr (.inr ⟨i, he⟩)) (hne e he)]
        exact hm.1 ho i e he
    · intro j d ref' pre' kind' ch' he hmem
      refine hqi i ?_
      rw [he]
      exact mem_tags_node.mpr (.inr ⟨j, hmem⟩)
    · exact fun d hd ↦ hold d (mem_tags_node.mpr (.inr ⟨i, hd⟩))

private theorem count_map_moveLoc {l : List Loc} (h : (q, 0) ∉ l) (r : Nat) :
    (l.map (moveLoc q p)).count (r, 0) = l.count (r, 0) := by
  induction l with
  | nil => rfl
  | cons c l ih =>
    rw [List.mem_cons, not_or] at h
    rw [List.map_cons, List.count_cons, List.count_cons, ih h.2]
    congr 2
    by_cases hc : c.1 = q
    · have hc0 : c.2 ≠ 0 := fun h0 ↦ h.1 (Prod.ext hc h0).symm
      have h1 : (moveLoc q p c == (r, 0)) = false := by
        rw [beq_eq_false_iff_ne]
        intro he
        exact hc0 (by rw [← moveLoc_snd (q := q) (p := p) c, he])
      have h2 : (c == (r, 0)) = false := by
        rw [beq_eq_false_iff_ne]
        rintro rfl
        exact hc0 rfl
      rw [h1, h2]
    · rw [moveLoc_of_ne hc]

end

/-- What copying the root page of a trie does. -/
structure Cloned (s : State Cells) (t : Trie Loc) (p : Nat) (s' : State Cells) (t' : Trie Loc) :
    Prop where
  tag : t'.tag? = some (p, 0)
  ref : t'.ref? = t.ref?
  holds : Holds s' t'
  evolves : Evolves s t.tags s' t'.tags
  current : old s' p = false
  flag : flag s' t' = (flag s t).withTag false
  balance : Balance s t.tags s' t'.tags
  clears : Full s t.tags → Clears s t.tags s' t'.tags
  dirty : ∀ r, dirty s' r = true → r = p ∨ dirty s r = true
  inPlace : ∀ q, t.tag? = some (q, 0) → old s q = false → p = q

private theorem cloned_inPlace {t : Trie Loc} (hs : Ready s) (h : Holds s t)
    (ht : t.tag? = some (q, 0)) (ho : old s q = false) :
    Cloned s t q (s.setPages (s.engine.pageManager.setPage q
      { s.engine.pageManager.pages q with state := .dirty s.context.snapshotId })) t := by
  have hpages (r : Nat) (hr : r ≠ q) :
      (s.engine.pageManager.setPage q { s.engine.pageManager.pages q with
        state := .dirty s.context.snapshotId }).pages r = s.engine.pageManager.pages r :=
    PageManager.pages_setPage_of_ne _ _ hr
  generalize hs' : s.setPages (s.engine.pageManager.setPage q
    { s.engine.pageManager.pages q with state := .dirty s.context.snapshotId }) = s'
  have hcontents (r : Nat) : (s'.engine.pageManager.pages r).contents =
      (s.engine.pageManager.pages r).contents := by
    subst hs'
    by_cases hr : r = q
    · rw [hr, State.pageManager_setPages, PageManager.pages_setPage_self]
    · rw [State.pageManager_setPages, hpages r hr]
  have hstamp (r : Nat) : stamp s' r = stamp s r := by
    subst hs'
    by_cases hr : r = q
    · rw [hr, old_eq_false.mp ho, stamp, State.pageManager_setPages,
        PageManager.pages_setPage_self]
      rfl
    · rw [stamp, State.pageManager_setPages, hpages r hr, stamp]
  have hcontext : s'.context = s.context := by rw [← hs', State.context_setPages]
  have hold (r : Nat) : old s' r = old s r := by rw [old, hstamp, hcontext, old]
  have hvacant (r : Nat) : Vacant s' r ↔ Vacant s r := by
    subst hs'
    exact Iff.rfl
  have hready : Ready s' := by
    subst hs'
    exact ⟨hs.range, hs.alive, hs.nodup, hs.below⟩
  have hlive (c : Loc) (hc : c ∈ t.tags) : ¬ Vacant s' c.1 ∧ stamp s' c.1 ≠ none := by
    rw [hvacant, hstamp]
    exact h.live c hc
  refine ⟨ht, rfl, ⟨?_, h.nodup, hlive, ?_⟩, ?_, ?_, ?_, ?_, ?_, ?_, fun r hr _ ↦ ?_⟩
  · exact h.stored.congr fun c _ ↦ by simp only [cellAt, hcontents]
  · exact Holds.oldBelow_congr (fun c _ ↦ hold c.1) h.mono
  · exact
      { ready := hready
        vacant := fun r ↦ (hvacant r).mp
        owned := hlive
        new := fun c hc ↦ .inl hc
        frame := fun c _ _ _ ↦ by simp only [cellAt, hcontents]
        stamps := fun r _ ↦ hstamp r
        kept := fun r _ _ ↦ hcontents r
        context := by rw [hcontext]
        alive := by rw [← hs']; rfl
        list := by rw [← hs']; exact .refl
        count := by rw [← hs']; exact Nat.le_refl _ }
  · rw [hold, ho]
  · have hf : flag s' t = flag s t := Holds.map_congr fun c _ ↦ by rw [hold]
    rw [hf]
    cases t with
    | empty => rfl
    | node c ref pre kind ch =>
      cases ht
      simp [flag, Trie.map, withTag, ho]
  · subst hs'
    exact .of_same rfl rfl rfl fun _ ↦ rfl
  · exact fun _ ↦ .of_cells (fun c hc ↦ (h.live c hc).1) fun c hc _ ↦ by
      simpa only [cellAt, hcontents] using hc
  · intro r hr
    by_cases hrq : r = q
    · exact .inl hrq
    · subst hs'
      rw [dirty, State.pageManager_setPages, hpages r hrq] at hr
      exact .inr hr
  · rw [ht] at hr
    cases hr
    rfl

/-- Nothing is left behind on the copy of a page on which no cell leaks. -/
private theorem clears_copy {t : Trie Loc} {id : Nat} (h : Holds s t) (hq : (q, 0) ∈ t.tags)
    (hid : Vacant s id)
    (hcell : ∀ c, cellAt s' c = if c.1 = id then cellAt s (q, c.2) else cellAt s c)
    (hfull : Full s t.tags) : Clears s t.tags s' (t.map (moveLoc q id)).tags := by
  have hmem (d : Loc) (hd : d.1 ≠ id) :
      d ∈ (t.map (moveLoc q id)).tags ↔ d ∈ t.tags ∧ d.1 ≠ q := by
    rw [tags_map, List.mem_map]
    constructor
    · rintro ⟨c, hc, rfl⟩
      by_cases hcq : c.1 = q
      · exact absurd (by simp [moveLoc, hcq]) hd
      · rw [moveLoc_of_ne hcq]
        exact ⟨hc, hcq⟩
    · rintro ⟨hd, hdq⟩
      exact ⟨d, hd, moveLoc_of_ne hdq⟩
  constructor
  · intro r hr
    by_cases hrid : r = id
    · exact .inr (hrid ▸ hid)
    · exact .inl ((hmem _ hrid).mp hr).1
  · intro c hc hcm
    rw [hcell] at hc
    obtain ⟨r, j⟩ := c
    by_cases hrid : r = id
    · subst hrid
      have hj : (q, j) ∈ t.tags := hfull (q, j) (by simpa using hc) hq
      refine absurd ?_ hcm
      rw [tags_map]
      exact List.mem_map.mpr ⟨(q, j), hj, moveLoc_self j⟩
    · rw [if_neg hrid] at hc
      rw [hmem _ hrid, not_and, not_not] at hcm
      have hroot : (r, 0) ∈ (t.map (moveLoc q id)).tags ↔ (r, 0) ∈ t.tags ∧ r ≠ q := hmem _ hrid
      by_cases hm : (r, j) ∈ t.tags
      · have hrq : r = q := hcm hm
        refine .inr ⟨fun hr ↦ (hroot.mp hr).2 hrq, .inl ?_⟩
        rw [hrq]
        exact hq
      · by_cases hv : Vacant s r
        · exact .inr ⟨fun hr ↦ (h.live _ (hroot.mp hr).1).1 hv, .inr hv⟩
        · exact .inl ⟨hv, hc, hm⟩

private theorem cloned_copy {t : Trie Loc} {id : Nat} {s₁ s₃ : State Cells} (h : Holds s t)
    (ht : t.tag? = some (q, 0)) (hq' : old s q = true) (ha : Allocated s id s₁)
    (hq : Orphaned (s₁.setCells id (s₁.engine.pageManager.pages q).contents)
      (fun r ↦ if r = q then 1 else 0) s₃) :
    Cloned s t id s₃ (t.map (moveLoc q id)) := by
  cases t with
  | empty => cases ht
  | node c ref pre kind ch =>
  cases ht
  generalize htree : Trie.node (q, 0) ref pre kind ch = t at h
  have hqt : (q, 0) ∈ t.tags := htree ▸ mem_tags_node.mpr (.inl rfl)
  have hqid : q ≠ id := ha.ne (h.live _ hqt).1
  have hne (c : Loc) (hc : c ∈ t.tags) : c.1 ≠ id := ha.ne (h.live c hc).1
  have hbelow (i : Fin 16) : (q, 0) ∉ (ch i).tags := by
    subst htree
    exact h.root_not_mem i
  have hbelow' (i : Fin 16) (c : Loc) (ref' : RlpNode) (pre' : Nibbles) (kind' : Kind)
      (ch' : Fin 16 → Trie Loc) (he : t = .node c ref' pre' kind' ch') : (q, 0) ∉ (ch' i).tags := by
    rw [← htree] at he
    cases he
    exact hbelow i
  have hold₁ : old s₁ id = false := ha.old_page
  -- the cells of the copy
  have hcell (c : Loc) : cellAt s₃ c =
      if c.1 = id then cellAt s (q, c.2) else cellAt s c := by
    have h3 : cellAt s₃ c = cellAt (s₁.setCells id (s₁.engine.pageManager.pages q).contents) c := by
      simp only [cellAt, hq.pages]
    rw [h3, cellAt_setCells]
    split
    · rw [ha.others q hqid]
      rfl
    · next hc => exact ha.cellAt_of_ne hc
  have htags (d : Loc) (hd : d ∈ (t.map (moveLoc q id)).tags) :
      d.1 = id ∨ d ∈ t.tags ∧ ¬ Vacant s d.1 ∧ stamp s d.1 ≠ none := by
    rw [tags_map, List.mem_map] at hd
    obtain ⟨c, hc, rfl⟩ := hd
    by_cases hcq : c.1 = q
    · left
      simp [moveLoc, hcq]
    · rw [moveLoc_of_ne hcq]
      exact .inr ⟨hc, h.live c hc⟩
  have he₁ : Evolves s t.tags s₁ (t.map (moveLoc q id)).tags := ha.evolves htags
  have he₂ : Evolves s₁ (t.map (moveLoc q id)).tags
      (s₁.setCells id (s₁.engine.pageManager.pages q).contents) (t.map (moveLoc q id)).tags :=
    evolves_setCells ha.ready hold₁ he₁.owned (fun c hc ↦ .inl hc)
      fun j _ hj ↦ absurd (ha.cellAt_page j) hj
  have he₃ := hq.evolves (t.map (moveLoc q id)).tags he₂.owned
  have he := (he₁.trans he₂).trans he₃
  have hcurrent : old s₃ id = false := by
    have : ¬ Vacant s₁ id := fun hv ↦ (ha.vacant' id hv).2 rfl
    rw [(he₂.trans he₃).old_eq this, hold₁]
  have hold (c : Loc) (hc : c ∈ t.tags) : old s₃ c.1 = old s c.1 := he.old_eq (h.live c hc).1
  refine ⟨?_, ref?_map _ _, ⟨?_, ?_, he.owned, ?_⟩, he, hcurrent, ?_, ?_,
    clears_copy h hqt ha.vacant hcell, ?_, fun r hr ho ↦ ?_⟩
  · subst htree
    simp [Trie.map, tag?]
  · refine stored_moveLoc h.stored (fun c hc ↦ ?_) hbelow'
    rw [hcell]
    by_cases hcq : c.1 = q
    · obtain ⟨r, j⟩ := c
      simp only at hcq
      subst hcq
      simp
    · rw [moveLoc_of_ne hcq, if_neg (hne c hc)]
  · rw [tags_map]
    refine h.nodup.map_on fun c hc d hd hcd ↦ ?_
    have h2 : c.2 = d.2 := by
      have := congrArg Prod.snd hcd
      simpa using this
    by_cases hcq : c.1 = q
    · by_cases hdq : d.1 = q
      · exact Prod.ext (hcq.trans hdq.symm) h2
      · rw [moveLoc_of_ne hdq] at hcd
        exact absurd (by rw [← hcd]; simp [moveLoc, hcq]) (hne d hd)
    · by_cases hdq : d.1 = q
      · rw [moveLoc_of_ne hcq] at hcd
        exact absurd (by rw [hcd]; simp [moveLoc, hdq]) (hne c hc)
      · rw [moveLoc_of_ne hcq, moveLoc_of_ne hdq] at hcd
        exact hcd
  · exact oldBelow_moveLoc h.stored h.mono hbelow' hcurrent fun c hc _ ↦ hold c hc
  · subst htree
    simp only [flag, Trie.map, withTag, moveLoc_self, hcurrent, Bool.and_false]
    congr 1
    funext i
    rw [map_map]
    refine Holds.map_congr fun c hc ↦ ?_
    simp only [Function.comp_apply, moveLoc_snd]
    by_cases hcq : c.1 = q
    · have : c.2 ≠ 0 := fun h0 ↦ hbelow i ((Prod.ext hcq h0 : c = (q, 0)) ▸ hc)
      simp [this]
    · rw [moveLoc_of_ne hcq, hold c (mem_tags_node.mpr (.inr ⟨i, hc⟩))]
  · intro r
    have hrest : (q, 0) ∉ t.tags.tail := by
      have := h.nodup
      subst htree
      exact (List.nodup_cons.mp this).1
    have hcons : t.tags = (q, 0) :: t.tags.tail := by
      subst htree
      rfl
    have h1 := ha.orphanCount r
    have h2 : orphanCount s₃ r = _ + if r = q then 1 else 0 := hq.count r
    have h3 : orphanCount (s₁.setCells id (s₁.engine.pageManager.pages q).contents) r =
        orphanCount s₁ r := rfl
    have h4 : added s s₃ r = added s s₁ r := by
      simp only [added, hq.pages]
      rfl
    have h5 : s₃.strayPages = s.strayPages := hq.stray.trans ha.stray
    have h6 := count_map_moveLoc (p := id) hrest r
    rw [tags_map, hcons, List.map_cons, List.count_cons, List.count_cons, moveLoc_self, h6, h4, h5]
    simp only [beq_iff_eq, Prod.mk.injEq, and_true, @eq_comm _ id r, @eq_comm _ q r]
    omega
  · intro r hr
    by_cases hrid : r = id
    · exact .inl hrid
    · refine .inr ?_
      rw [hq.dirty_eq, dirty_setCells] at hr
      exact ha.dirty hrid hr
  · rw [← htree] at hr
    cases hr
    rw [hq'] at ho
    cases ho

/-- `get_mut_clone` returns a page that holds a copy of the trie. -/
theorem getMutClone_spec {Q : Nat → State Cells → Prop} {t : Trie Loc} (hs : Ready s)
    (h : Holds s t) (ht : t.tag? = some (q, 0))
    (hQ : ∀ id s' t', Cloned s t id s' t' → Q id s') :
    Ensures (getMutClone q : EngineM Cells Nat) s Q (OnSplit P) := by
  refine .bind (.intro (fun page t₁ ht₁ ↦ ?_) ?_)
  · obtain ⟨rfl, rfl, -, n, hn⟩ := getPage_eq_ok ht₁
    refine .bind (.get ?_)
    split
    · next hst =>
      refine .bind (.intro (fun u t₂ ht₂ ↦ ?_) (fun e t₂ ht₂ ↦ ?_))
      · obtain ⟨-, -, rfl⟩ := getMutPage_eq_ok ht₂
        exact hQ _ _ _ (cloned_inPlace hs h ht (old_eq_false.mpr hst))
      · simp only [getMutPage, bind_apply, get_apply] at ht₂
        cases hg : t₁.engine.pageManager.getMut t₁.context.snapshotId q with
        | ok m => simp [hg] at ht₂
        | error e' =>
          simp only [hg, liftPage_error, EStateM.Result.error.injEq] at ht₂
          intro k hk
          rw [← ht₂.1] at hk
          cases hk
    · next hst =>
      have ho : old t₁ q = true := decide_eq_true hst
      refine .bind (allocatePage_spec hs fun id t₂ ha ↦ .bind (.get ?_))
      refine .bind (writeContents_spec (.bind (dropOnError_spec ?_)))
      refine orphanPage_spec (P := fun n t ↦ P n (t.setPages (t.engine.pageManager.drop id)))
        (ha.ready.setCells _) ?_
      exact fun t₃ hq ↦ .pure (hQ _ _ _ (cloned_copy h ht ho ha hq))
  · intro e t₁ ht₁
    have := getPage_spec (s := s) (q := q) (P := P) (Q := fun _ _ ↦ True) fun _ _ ↦ trivial
    exact this.error ht₁

end TrieDb.Layout
