import TrieDb.Layout.Cache
import TrieDb.Layout.Portable
import TrieDb.Layout.Verified
import TrieDb.Trie.Effective

/-!
# Snapshots beside a write

A transaction reads the pages of its snapshot, which later snapshots leave alone: they write to
pages of their own, to orphans that no open transaction can reach and to new pages. `seen` shows a
transaction the engine without all other pages. What it sees there it reads from the engine itself,
at any moment of a write and also after one that failed.
-/

namespace TrieDb.Layout

open Meta Base Engine Trie

variable {e e' : StorageEngine Cells} {ctx : TransactionContext} {s s' : State Cells} {t : Trie Loc}
  {k : Nat}

/-! ### What a snapshot sees -/

/-- A page as a snapshot sees it: one of a later snapshot or held for writing is not there. -/
def pageAsOf (k : Nat) (page : Page Cells) : Page Cells :=
  match page.state with
  | .occupied j => if j ≤ k then page else { page with state := .unused }
  | _ => { page with state := .unused }

/-- The engine as a snapshot sees it. -/
def asOf (k : Nat) (e : StorageEngine Cells) : StorageEngine Cells :=
  { e with
    pageManager := { e.pageManager with pages := fun q ↦ pageAsOf k (e.pageManager.pages q) }
    aliveSnapshot := k }

/-- The state in which a transaction on a snapshot reads, as if the next snapshot were written. -/
def seen (e : StorageEngine Cells) (ctx : TransactionContext) : State Cells :=
  .new (asOf ctx.snapshotId e) { ctx with snapshotId := ctx.snapshotId + 1 }

/-- A page that belongs to a snapshot and is not orphaned for it. -/
structure Visible (k : Nat) (e : StorageEngine Cells) (q : Nat) : Prop where
  inFile : q ≤ e.pageManager.pageCount
  occupied : ∃ j ≤ k, (e.pageManager.pages q).state = .occupied j
  reachable : ∀ o ∈ e.metaManager.orphanPages, o.orphanedAt ≤ k → o.pageId ≠ q

private theorem contents_pageAsOf (k : Nat) (page : Page Cells) :
    (pageAsOf k page).contents = page.contents := by
  unfold pageAsOf
  split
  · split <;> rfl
  · rfl

private theorem isDirty_pageAsOf (k : Nat) (page : Page Cells) :
    (pageAsOf k page).state.isDirty = false := by
  unfold pageAsOf
  split
  · next j hj =>
    split
    · rw [hj]
      rfl
    · rfl
  · rfl

private theorem pageAsOf_eq_self {page : Page Cells} {j : Nat} (h : page.state = .occupied j)
    (hj : j ≤ k) : pageAsOf k page = page := by
  simp only [pageAsOf, h, if_pos hj]

/-- The stamp of a page that is there. -/
private theorem snapshotId_pageAsOf {page : Page Cells}
    (h : (pageAsOf k page).state.snapshotId ≠ none) : ∃ j ≤ k, page.state = .occupied j := by
  cases hst : page.state with
  | occupied j =>
    by_cases hj : j ≤ k
    · exact ⟨j, hj, rfl⟩
    · simp only [pageAsOf, hst, if_neg hj] at h
      exact absurd rfl h
  | unused =>
    simp only [pageAsOf, hst] at h
    exact absurd rfl h
  | dirty j =>
    simp only [pageAsOf, hst] at h
    exact absurd rfl h

/-- The pages of a trie that a snapshot sees. -/
private theorem live_seen {q : Nat} :
    (¬ Vacant (seen e ctx) q ∧ stamp (seen e ctx) q ≠ none) ↔ Visible ctx.snapshotId e q := by
  constructor
  · rintro ⟨hv, hst⟩
    refine ⟨?_, snapshotId_pageAsOf hst, fun o ho hle heq ↦ hv (.inl ⟨o, ho, hle, heq⟩)⟩
    by_contra hlt
    exact hv (.inr (not_le.mp hlt))
  · rintro ⟨hin, ⟨j, hj, hst⟩, hfree⟩
    constructor
    · rintro (⟨o, ho, hle, heq⟩ | hlt)
      · exact hfree o ho hle heq
      · exact absurd hin (not_le.mpr hlt)
    · have hpage : (seen e ctx).engine.pageManager.pages q = e.pageManager.pages q :=
        pageAsOf_eq_self hst hj
      rw [stamp, hpage, hst]
      exact Option.some_ne_none _

namespace Visible

variable {q : Nat} (h : Visible k s.engine q)
include h

/-- No allocation of a write hands out a page of a snapshot that is above the threshold. -/
private theorem live (ha : s.engine.aliveSnapshot ≤ k) : ¬ Vacant s q ∧ stamp s q ≠ none := by
  constructor
  · rintro (⟨o, ho, hle, heq⟩ | hlt)
    · exact h.reachable o ho (hle.trans ha) heq
    · exact absurd h.inFile (not_le.mpr hlt)
  · obtain ⟨j, -, hj⟩ := h.occupied
    rw [stamp, hj]
    exact Option.some_ne_none _

/-- A page of an earlier snapshot is old. -/
private theorem old (hk : k < s.context.snapshotId) : old s q = true := by
  obtain ⟨j, hj, hst⟩ := h.occupied
  rw [Layout.old, decide_eq_true_eq, stamp, hst]
  intro heq
  have : j = s.context.snapshotId := Option.some.inj heq
  omega

end Visible

private theorem cellAt_seen (c : Loc) :
    cellAt (seen e ctx) c = (e.pageManager.pages c.1).contents.cell c.2 :=
  congrArg (fun x : Cells ↦ x.cell c.2) (contents_pageAsOf _ _)

/-- What a context sees is clean. -/
theorem clean_seen : Clean (seen e ctx) := fun _ ↦ by
  simp only [dirty, seen, asOf, State.new, isDirty_pageAsOf, Bool.and_false]

/-- All pages that are there are old for the next snapshot. -/
private theorem old_seen (q : Nat) : old (seen e ctx) q = true := by
  rw [old, decide_eq_true_eq]
  intro h
  have hne : stamp (seen e ctx) q ≠ none := by
    rw [h]
    exact Option.some_ne_none _
  obtain ⟨j, hj, hst⟩ := snapshotId_pageAsOf hne
  rw [stamp, show (seen e ctx).engine.pageManager.pages q = e.pageManager.pages q from
    pageAsOf_eq_self hst hj, hst] at h
  have : j = ctx.snapshotId + 1 := Option.some.inj h
  omega

/-- Where all pages are old, they are so below any of them. -/
private theorem oldBelow_of_old (h : ∀ c ∈ t.tags, old s c.1 = true) : OldBelow s t := by
  induction t with
  | empty => trivial
  | node c ref pre kind ch ih =>
    have hch (i : Fin 16) (d : Loc) (hd : d ∈ (ch i).tags) : old s d.1 = true :=
      h d (mem_tags_node.mpr (.inr ⟨i, hd⟩))
    exact ⟨fun _ ↦ hch, fun i ↦ ih i (hch i)⟩

/-- A trie is seen if its nodes are stored on pages visible to the context. -/
theorem holds_seen : Holds (seen e ctx) t ↔
    t.Stored (fun c ↦ (e.pageManager.pages c.1).contents.cell c.2) ∧ t.tags.Nodup ∧
      ∀ c ∈ t.tags, Visible ctx.snapshotId e c.1 := by
  constructor
  · intro h
    exact ⟨h.stored.congr fun c _ ↦ (cellAt_seen c).symm, h.nodup,
      fun c hc ↦ live_seen.mp (h.live c hc)⟩
  · rintro ⟨hst, hnd, hlive⟩
    exact ⟨hst.congr fun c _ ↦ cellAt_seen c, hnd, fun c hc ↦ live_seen.mpr (hlive c hc),
      oldBelow_of_old fun c _ ↦ old_seen c.1⟩

/-! ### What keeps a snapshot -/

/-- The orphans that are old enough for a threshold. -/
def ripe (k : Nat) (e : StorageEngine Cells) : List OrphanPage :=
  e.metaManager.orphanPages.filter fun o ↦ o.orphanedAt ≤ k

/-- Nothing changes that a snapshot sees, and no page becomes an orphan for it. -/
structure Keeps (k : Nat) (e e' : StorageEngine Cells) : Prop where
  count : e.pageManager.pageCount ≤ e'.pageManager.pageCount
  range : e'.metaManager.RangeWF
  ripe : (ripe k e').Sublist (ripe k e)
  pages : ∀ q, Visible k e q → e'.pageManager.pages q = e.pageManager.pages q

namespace Keeps

private theorem refl (h : e.metaManager.RangeWF) : Keeps k e e :=
  ⟨Nat.le_refl _, h, .refl _, fun _ _ ↦ rfl⟩

private theorem visible {q : Nat} (h : Keeps k e e') (hq : Visible k e q) : Visible k e' q where
  inFile := hq.inFile.trans h.count
  occupied := by rw [h.pages q hq]; exact hq.occupied
  reachable o ho hle :=
    hq.reachable o (List.mem_filter.mp (h.ripe.mem
      (List.mem_filter.mpr ⟨ho, decide_eq_true hle⟩))).1 hle

private theorem trans {e'' : StorageEngine Cells} (h : Keeps k e e') (h' : Keeps k e' e'') :
    Keeps k e e'' where
  count := h.count.trans h'.count
  range := h'.range
  ripe := h'.ripe.trans h.ripe
  pages q hq := by rw [h'.pages q (h.visible hq), h.pages q hq]

/-- The pages and the list of orphans stay. -/
theorem of_same (hpages : e'.pageManager.pages = e.pageManager.pages)
    (hcount : e.pageManager.pageCount ≤ e'.pageManager.pageCount)
    (horphans : e'.metaManager.orphanPages = e.metaManager.orphanPages)
    (hrange : e'.metaManager.RangeWF) : Keeps k e e' where
  count := hcount
  range := hrange
  ripe := by rw [Layout.ripe, horphans, Layout.ripe]
  pages q _ := by rw [hpages]

variable (h : Keeps ctx.snapshotId e e')
include h

private theorem holds (ht : Holds (seen e ctx) t) : Holds (seen e' ctx) t := by
  obtain ⟨hst, hnd, hlive⟩ := holds_seen.mp ht
  refine holds_seen.mpr ⟨hst.congr fun c hc ↦ ?_, hnd, fun c hc ↦ h.visible (hlive c hc)⟩
  rw [h.pages c.1 (hlive c hc)]

private theorem ready (hs : Ready (seen e ctx)) : Ready (seen e' ctx) where
  range := h.range
  alive := Nat.lt_succ_self _
  nodup := hs.nodup.sublist (h.ripe.map _)
  below o ho hle :=
    (hs.below o (List.mem_filter.mp (h.ripe.mem
      (List.mem_filter.mpr ⟨ho, decide_eq_true hle⟩))).1 hle).trans h.count

/-- The trie of a transaction stays as it is. -/
private theorem shaped (hs : Shaped (seen e ctx) t) : Shaped (seen e' ctx) t where
  ready := h.ready hs.ready
  holds := h.holds hs.holds
  anchored := by
    have := hs.anchored
    cases t <;> exact this
  rough := hs.rough
  branched := hs.branched
  full c hc hroot := by
    have hpage := h.pages c.1 ((holds_seen.mp hs.holds).2.2 (c.1, 0) hroot)
    refine hs.full c ?_ hroot
    rw [cellAt_seen] at hc ⊢
    rwa [← hpage]

/-- So do the locations that it remembers. -/
private theorem sound (hs : Sound (seen e ctx) t) : Sound (seen e' ctx) t where
  shaped := h.shaped hs.shaped
  clean := clean_seen
  remembers a c hc := by
    obtain ⟨hlen, hholds, hrough, hinhabited, hlook⟩ := hs.remembers a c hc
    exact ⟨hlen, h.holds hholds, hrough, hinhabited, hlook⟩

end Keeps

/-! ### A write of a later snapshot -/

/-- What holds at any moment of a write that began in `s₀`, for a snapshot that it does not
recycle. -/
structure Spares (k : Nat) (s₀ : State Cells) (held : List Nat) (s : State Cells) : Prop where
  frame : Frame s₀ held s
  distinct : held.Nodup
  alive : s.engine.aliveSnapshot = s₀.engine.aliveSnapshot
  active : s.engine.metaManager.active = s₀.engine.metaManager.active
  keeps : Keeps k s₀.engine s.engine

namespace Spares

variable {s₀ : State Cells} {held : List Nat} {p : Nat}

/-- A page that is not of the snapshot may be written. -/
private theorem setPage (h : Keeps k s₀.engine s.engine) (hp : ¬ Visible k s₀.engine p)
    (page : Page Cells) :
    Keeps k s₀.engine (s.setPages (s.engine.pageManager.setPage p page)).engine where
  count := h.count
  range := h.range
  ripe := h.ripe
  pages q hq := by
    have hqp : q ≠ p := by
      rintro rfl
      exact hp hq
    rw [State.pageManager_setPages, PageManager.pages_setPage_of_ne _ _ hqp, h.pages q hq]

/-- Pages may be added to the file. -/
private theorem grow (h : Keeps k s₀.engine s.engine) {n : Nat}
    (hn : s.engine.pageManager.pageCount ≤ n) :
    Keeps k s₀.engine (s.setPages { s.engine.pageManager with pageCount := n }).engine :=
  ⟨h.count.trans hn, h.range, h.ripe, h.pages⟩

/-- A page held for writing is not of the snapshot. -/
private theorem not_visible (h : Frame s₀ held s) (hp : p ∈ held) : ¬ Visible k s.engine p := by
  intro hv
  obtain ⟨j, -, hj⟩ := hv.occupied
  rw [(h.atHand p hp).1] at hj
  cases hj

/-- An orphan is taken off the list, or none is. -/
private theorem pop {r : Option OrphanPage} {m : MetadataManager} (h : Keeps k s₀.engine s.engine)
    {a : Nat} (hpop : s.engine.metaManager.pop a = (r, m)) (ha : a ≤ k) :
    m.active = s.engine.metaManager.active ∧ Keeps k s₀.engine (s.setMeta m).engine ∧
      ∀ o ∈ r, ¬ Visible k s₀.engine o.pageId := by
  cases r with
  | none =>
    obtain ⟨rfl, -⟩ := MetadataManager.pop_none h.range hpop
    exact ⟨rfl, h, fun o ho ↦ by cases ho⟩
  | some o =>
    obtain ⟨hq, hle, hrange, hactive, -⟩ := MetadataManager.orphanPages_pop_some h.range hpop
    refine ⟨hactive, ⟨h.count, hrange, ?_, h.pages⟩, ?_⟩
    · refine List.Sublist.trans (List.Sublist.filter _ ?_) h.ripe
      rw [hq]
      exact List.sublist_cons_self o _
    · rintro o' ho' hvisible
      cases ho'
      refine (h.visible hvisible).reachable o ?_ (hle.trans ha) rfl
      rw [hq]
      exact List.mem_cons_self

/-- A page is listed as an orphan of the snapshot that is written. -/
private theorem push {o : OrphanPage} {m : MetadataManager} (h : Keeps k s₀.engine s.engine)
    (hpush : s.engine.metaManager.push o = some m) (ho : k < o.orphanedAt) :
    m.active = s.engine.metaManager.active ∧ Keeps k s₀.engine (s.setMeta m).engine := by
  obtain ⟨hq, hrange, hactive, -⟩ := MetadataManager.orphanPages_push h.range hpush
  refine ⟨hactive, h.count, hrange, ?_, h.pages⟩
  have hsame : ripe k (s.setMeta m).engine = ripe k s.engine := by
    unfold ripe
    rw [State.metaManager_setMeta, hq, List.filter_append,
      List.filter_cons_of_neg (by simpa using ho), List.filter_nil, List.append_nil]
  rw [hsame]
  exact h.ripe

/-- One action of the write. -/
theorem keeps_action {b : Bool} {x y : List Nat × State Cells} (hk : k < s₀.context.snapshotId)
    (ha : s₀.engine.aliveSnapshot ≤ k) (hact : Action b x y) (h : Spares k s₀ x.1 x.2) :
    y.2.engine.aliveSnapshot = x.2.engine.aliveSnapshot ∧
      y.2.engine.metaManager.active = x.2.engine.metaManager.active ∧
      Keeps k x.2.engine y.2.engine := by
  have hle : x.2.engine.aliveSnapshot ≤ k := by rw [h.alive]; exact ha
  have hid : x.2.context.snapshotId = s₀.context.snapshotId := h.frame.snapshotId
  have hkeeps : Keeps k x.2.engine x.2.engine := .refl h.keeps.range
  cases hact with
  | @allocate _ held s id t hrun =>
    obtain ⟨o, m, hpop, rfl, -, -, rfl⟩ | ⟨m, hpop, rfl, -, rfl⟩ := allocatePage_eq_ok hrun
    · obtain ⟨hact, hpopped, hfree⟩ := pop hkeeps hpop hle
      exact ⟨rfl, hact, setPage hpopped (hfree o rfl) _⟩
    · obtain ⟨hact, hpopped, -⟩ := pop hkeeps hpop hle
      have hnew : ¬ Visible k s.engine (s.engine.pageManager.pageCount + 1) := fun hv ↦
        Nat.not_succ_le_self _ hv.inFile
      exact ⟨rfl, hact, setPage (grow hpopped (Nat.le_succ _)) hnew _⟩
  | @refuse held s e t hrun =>
    obtain ⟨hpages, hcount, halive, -, -⟩ := pages_allocatePage_error hrun
    obtain ⟨o, m, hpop⟩ : ∃ o m, s.engine.metaManager.pop s.engine.aliveSnapshot = (o, m) :=
      ⟨_, _, rfl⟩
    have hmeta := metaManager_allocatePage_error hrun
    rw [hpop] at hmeta
    obtain ⟨hact, ⟨-, hrange, hripe, -⟩, -⟩ := pop hkeeps hpop hle
    refine ⟨halive, by rw [hmeta]; exact hact, hcount, ?_, ?_, fun q _ ↦ by rw [hpages]⟩
    · rw [hmeta]
      exact hrange
    · rw [ripe, hmeta]
      exact hripe
  | @take _ held s id page t hpage hstamp hrun =>
    obtain ⟨-, rfl, -, n, hn⟩ := getPage_eq_ok hpage
    obtain ⟨-, -, rfl⟩ := getMutPage_eq_ok hrun
    refine ⟨rfl, rfl, setPage hkeeps (fun hv ↦ ?_) _⟩
    -- the page is of the snapshot that is written
    obtain ⟨j, hj, hst⟩ := hv.occupied
    rw [hst] at hstamp
    have : j = s.context.snapshotId := Option.some.inj hstamp
    simp only at hid
    omega
  | write c hheld hrun =>
    cases hrun
    exact ⟨rfl, rfl, setPage hkeeps (not_visible h.frame hheld) _⟩
  | orphan id hrun =>
    obtain ⟨m, hpush, rfl⟩ := orphanPage_eq_ok hrun
    obtain ⟨hact, hkeeps'⟩ := push hkeeps hpush (by rw [hid]; exact hk)
    exact ⟨rfl, hact, hkeeps'⟩
  | drop hrun =>
    cases hrun
    exact ⟨rfl, rfl, setPage hkeeps (not_visible h.frame List.mem_cons_self) _⟩
  | context => exact ⟨rfl, rfl, hkeeps⟩
  | stray id => exact ⟨rfl, rfl, hkeeps⟩

private theorem action {b : Bool} {x y : List Nat × State Cells} (hk : k < s₀.context.snapshotId)
    (ha : s₀.engine.aliveSnapshot ≤ k) (hact : Action b x y) (h : Spares k s₀ x.1 x.2) :
    Spares k s₀ y.1 y.2 := by
  obtain ⟨hframe, hnd⟩ := Frame.action hact ⟨h.frame, h.distinct⟩
  obtain ⟨halive, hactive, hkeeps⟩ := h.keeps_action hk ha hact
  exact ⟨hframe, hnd, halive.trans h.alive, hactive.trans h.active, h.keeps.trans hkeeps⟩

/-- From one moment of a write to a later one. -/
private theorem trace {b : Bool} {x y : List Nat × State Cells} (hk : k < s₀.context.snapshotId)
    (ha : s₀.engine.aliveSnapshot ≤ k) (ht : Trace b x y) (h : Spares k s₀ x.1 x.2) :
    Spares k s₀ y.1 y.2 ∧ Keeps k x.2.engine y.2.engine := by
  induction ht with
  | refl => exact ⟨h, .refl h.keeps.range⟩
  | tail _ hact ih =>
    obtain ⟨hmid, hkeeps⟩ := ih
    exact ⟨hmid.action hk ha hact, hkeeps.trans (hmid.keeps_action hk ha hact).2.2⟩

private theorem start (hrange : s.engine.metaManager.RangeWF) : Spares k s [] s :=
  ⟨.start s, List.nodup_nil, rfl, rfl, .refl hrange⟩

end Spares

/-- At any moment of a write, a snapshot is kept that is older than the one written and not older
than the threshold. -/
theorem spares_trace {b : Bool} {held : List Nat} (h : Trace b ([], s) (held, s'))
    (hrange : s.engine.metaManager.RangeWF) (hk : k < s.context.snapshotId)
    (ha : s.engine.aliveSnapshot ≤ k) : Spares k s held s' :=
  (Spares.trace hk ha h (.start hrange)).1

/-- No page is held for writing, and none is of a snapshot after `n`. -/
def AtRest (n : Nat) (e : StorageEngine Cells) : Prop :=
  ∀ q, (e.pageManager.pages q).state.isDirty = false ∧
    (e.pageManager.pages q).state.headerSnapshotId ≤ n

private theorem AtRest.clean {n : Nat} (h : AtRest n s.engine) : Clean s := fun q ↦ by
  rw [dirty, (h q).1, Bool.and_false]

/-- When a write is over, no page is held, and every page that changed is of its snapshot. -/
theorem AtRest.trace {b : Bool} {n : Nat} (hs : AtRest n s.engine)
    (h : Trace b ([], s) ([], s')) (hn : s.context.snapshotId ≤ n) : AtRest n s'.engine := by
  intro q
  by_cases hq : s'.engine.pageManager.pages q = s.engine.pageManager.pages q
  · rw [hq]
    exact hs q
  · obtain ⟨hheader, hdirty⟩ := ((Frame.start s).trace h).copyOnWrite.written q hq
    exact ⟨hdirty, by rwa [hheader]⟩

/-- The context of a write counts the pages of the file, unless an allocation was refused. -/
theorem pageCount_trace {held : List Nat} (h : Trace true ([], s) (held, s'))
    (hs : s.context.pageCount = s.engine.pageManager.pageCount) :
    s'.context.pageCount = s'.engine.pageManager.pageCount := by
  refine h.invariant (P := fun x ↦ x.2.context.pageCount = x.2.engine.pageManager.pageCount) hs ?_
  rintro x y hact hx
  cases hact with
  | allocate hrun =>
    obtain ⟨o, m, -, -, -, -, rfl⟩ | ⟨m, -, -, -, rfl⟩ := allocatePage_eq_ok hrun
    · rfl
    · rfl
  | take hpage hstamp hrun =>
    obtain ⟨-, rfl, -⟩ := getPage_eq_ok hpage
    obtain ⟨-, -, rfl⟩ := getMutPage_eq_ok hrun
    exact hx
  | write c hid hrun =>
    cases hrun
    exact hx
  | orphan id hrun =>
    obtain ⟨m, -, rfl⟩ := orphanPage_eq_ok hrun
    exact hx
  | drop hrun =>
    cases hrun
    exact hx
  | context ctx _ hcount _ => exact hcount.trans hx
  | stray id => exact hx

/-! ### Pages -/

/-- Every page of the file is a page of the trie, is listed once as an orphan, or is lost. -/
def Accounts (s : State Cells) (t : Trie Loc) : Prop :=
  ∀ q, orphanCount s q + t.tags.count (q, 0) + s.strayPages.count q =
    if 0 < q ∧ q ≤ s.engine.pageManager.pageCount then 1 else 0

namespace Accounts

private theorem orphanCount_le (h : Accounts s t) (q : Nat) : orphanCount s q ≤ 1 := by
  have := h q
  split at this <;> omega

private theorem nodup (h : Accounts s t) : ((orphans s).map OrphanPage.pageId).Nodup :=
  List.nodup_iff_count_le_one.mpr h.orphanCount_le

private theorem orphan_inFile (h : Accounts s t) {o : OrphanPage} (ho : o ∈ orphans s) :
    0 < o.pageId ∧ o.pageId ≤ s.engine.pageManager.pageCount := by
  have hpos : 0 < orphanCount s o.pageId := List.count_pos_iff.mpr (List.mem_map_of_mem ho)
  have := h o.pageId
  split at this
  · assumption
  · omega

/-- No page of the trie is listed as an orphan. -/
private theorem orphan_ne (h : Accounts s t) {o : OrphanPage} (ho : o ∈ orphans s) {q : Nat}
    (hq : (q, 0) ∈ t.tags) : o.pageId ≠ q := by
  rintro rfl
  have hpos : 0 < orphanCount s o.pageId := List.count_pos_iff.mpr (List.mem_map_of_mem ho)
  have hroot := List.count_pos_iff.mpr hq
  have := h o.pageId
  split at this <;> omega

private theorem ready (h : Accounts s t) (hrange : s.engine.metaManager.RangeWF)
    (ha : s.engine.aliveSnapshot < s.context.snapshotId) : Ready s where
  range := hrange
  alive := ha
  nodup := h.nodup.sublist (List.filter_sublist.map _)
  below _ ho _ := (h.orphan_inFile ho).2

/-- Accounting depends on the orphans, the page count and the lost pages. -/
theorem congr (h : Accounts s t) (ho : orphans s' = orphans s)
    (hc : s'.engine.pageManager.pageCount = s.engine.pageManager.pageCount)
    (hl : s'.strayPages = s.strayPages) : Accounts s' t := by
  intro q
  rw [orphanCount, ho, hc, hl]
  exact h q

/-- The pages balance. -/
private theorem of_balance {t' : Trie Loc} (h : Accounts s t) (hb : Balance s t.tags s' t'.tags)
    (hc : s.engine.pageManager.pageCount ≤ s'.engine.pageManager.pageCount) : Accounts s' t' := by
  intro q
  have hq := h q
  rw [hb q, hq, added]
  split <;> split <;> split <;> omega

/-- A root page is not the page zero, which stands for no page in the metadata. -/
theorem rootOfRaw (h : Accounts s t) (hr : Anchored s t) :
    TransactionContext.rootOfRaw (s.context.rootNodePageId.getD 0) = s.context.rootNodePageId := by
  cases t with
  | empty =>
    rw [show s.context.rootNodePageId = none from hr]
    rfl
  | node c ref pre kind ch =>
    obtain ⟨hc, hroot, -⟩ := hr
    have hpage := h c.1
    have hmem : 0 < (node c ref pre kind ch).tags.count (c.1, 0) :=
      List.count_pos_iff.mpr (mem_tags_node.mpr (.inl (Prod.ext rfl hc.symm)))
    have hpos : c.1 ≠ 0 := by
      split at hpage <;> omega
    simp only [hroot, Option.getD_some, TransactionContext.rootOfRaw, if_neg hpos]

end Accounts

/-! ### Reads of a snapshot -/

private theorem shows_asOf (k : Nat) (e : StorageEngine Cells) : Shows (asOf k e) e where
  get q page h := by
    obtain ⟨hin, rfl, n, hn⟩ := PageManager.get_eq_ok h
    have hstate : (pageAsOf k (e.pageManager.pages q)).state.snapshotId ≠ none := by
      rw [show (pageAsOf k (e.pageManager.pages q)).state = .occupied n from hn]
      exact Option.some_ne_none _
    obtain ⟨j, hj, hst⟩ := snapshotId_pageAsOf hstate
    have hpage : (asOf k e).pageManager.pages q = e.pageManager.pages q := pageAsOf_eq_self hst hj
    have hin : ¬ e.pageManager.pageCount < q := not_lt.mpr hin
    rw [PageManager.get, if_neg hin, hst, hpage]
  contents q := (contents_pageAsOf k _).symm

/-- What a program does on the engine as the snapshot sees it, it does on the engine. -/
private theorem Portable.run {α : Type} {x : EngineM Cells α} (hx : Portable x) {v : α}
    {s' : State Cells} (h : x (seen e ctx) = .ok v s') (k : Nat) (l : List Nat) :
    x ⟨e, { ctx with snapshotId := k }, l⟩ =
      .ok v ⟨e, { s'.context with snapshotId := k }, l⟩ :=
  (hx _ _ _ h).2 e k l (shows_asOf _ _)

variable [AlloyTrie]

/-- The trie of a snapshot, with the locations that a transaction on it remembers. -/
structure Version (e : StorageEngine Cells) (ctx : TransactionContext) (t : Trie Loc) : Prop where
  sound : Sound (seen e ctx) t
  canonical : t.Canonical

namespace Version

/-- A version stays as long as its pages are kept. -/
theorem keeps (h : Version e ctx t) (hk : Keeps ctx.snapshotId e e') : Version e' ctx t :=
  ⟨hk.sound h.sound, h.canonical⟩

/-- The locations may be forgotten. -/
theorem clearCache (h : Version e ctx t) : Version e ctx.clearCache t :=
  ⟨⟨h.sound.shaped.recontext ⟨rfl, rfl, rfl⟩ rfl rfl, clean_seen, fun a c hc ↦ by cases hc⟩,
    h.canonical⟩

variable {a q : Nibbles} {n : Nat}

/-- `get_account` returns the account of the snapshot, and at most remembers where it is; whether
the transaction is a reader or the writer of the next snapshot. -/
theorem getAccount (h : Version e ctx t) (ha : a.length = 64) (hn : 130 ≤ n) (k : Nat)
    (l : List Nat) : ∃ cache,
      Engine.getAccount n a ⟨e, { ctx with snapshotId := k }, l⟩ = .ok (Entries.account t.lookup a)
        ⟨e, { ctx with snapshotId := k, contractAccountLocCache := cache }, l⟩ ∧
      Version e { ctx with contractAccountLocCache := cache } t := by
  obtain ⟨s', hrun, -⟩ := getAccount_reads clean_seen h.sound.shaped.holds h.sound.shaped.anchored
    h.canonical ha hn
  have hrun' := (portable_getAccount a n).run hrun k l
  have hnotes := notes_getAccount clean_seen h.sound.shaped ha n
  rw [hrun] at hnotes
  obtain rfl | ⟨c, -, rfl⟩ := id hnotes
  · exact ⟨ctx.contractAccountLocCache, hrun', h⟩
  · have hsound := h.sound.notes hnotes
    exact ⟨Function.update ctx.contractAccountLocCache a (some (c.1, c.2)), hrun', hsound,
      h.canonical⟩

/-- `get_storage` returns the slot of the snapshot, also where it starts at a location that is
remembered. -/
theorem getStorage (h : Version e ctx t) (hq : q.length = 128) (hn : 130 ≤ n) (k : Nat)
    (l : List Nat) : Engine.getStorage n q ⟨e, { ctx with snapshotId := k }, l⟩ =
      .ok (Entries.slot t.lookup q) ⟨e, { ctx with snapshotId := k }, l⟩ := by
  obtain ⟨s', hrun, -⟩ := h.sound.reads hq hn
  have hsame : s' = seen e ctx := by
    have hne : q.length ≠ addressPathLength := by
      rw [hq]
      decide
    exact (preserves_getStorage (P := (· = seen e ctx)) hne n _ rfl).ok hrun
  subst hsame
  exact (portable_getStorage q n).run hrun k l

/-- A read with a proof finds what is in the snapshot. -/
theorem withProof (h : Version e ctx t) (hq : q.length = 64 ∨ q.length = 128) (hn : 130 ≤ n)
    (k : Nat) (l : List Nat) : ∃ r,
      Answers t.lookup 128 q { hashedAddress := lower64Nibbles q } r ∧
      Reads (getValueWithProof n q) (seen e ctx) r ∧
      getValueWithProof n q ⟨e, { ctx with snapshotId := k }, l⟩ =
        .ok r ⟨e, { ctx with snapshotId := k }, l⟩ := by
  obtain ⟨r, hanswer, hread⟩ := withProof_reads clean_seen h.sound.shaped.holds
    h.sound.shaped.anchored h.canonical hq hn
  obtain ⟨s', hrun, -⟩ := id hread
  have hobserves := observes_getValueWithProof q n
  obtain ⟨rfl, -⟩ := hobserves _ _ _ hrun
  exact ⟨r, hanswer, hread, hobserves.portable.run hrun k l⟩

end Version

/-! ### The next snapshot -/

/-- What a writer starts from: the trie of the snapshot before its own, and the pages of the
file. -/
structure Begun (s : State Cells) (k : Nat) (t : Trie Loc) : Prop where
  next : s.context.snapshotId = k + 1
  alive : s.engine.aliveSnapshot ≤ k
  version : Version s.engine { s.context with snapshotId := k } t
  accounts : Accounts s t
  rest : AtRest (k + 1) s.engine

omit [AlloyTrie] in
/-- Every page of a transaction's trie has its first cell in the trie. -/
private theorem Anchored.root_mem (h : Anchored s t) (ht : Holds s t) {c : Loc} (hc : c ∈ t.tags) :
    (c.1, 0) ∈ t.tags := by
  have hne : t ≠ empty := by
    rintro rfl
    cases hc
  obtain ⟨q, hq, -⟩ := h.tag hne
  exact ht.stored.root_mem_of_first hq hc

/-- The trie of a write that is done, as transactions on its snapshot see it. -/
theorem Version.of_shaped (hs : Shaped s t) (hcan : t.Canonical) (hacc : Accounts s t)
    (hrest : AtRest s.context.snapshotId s.engine) :
    Version s.engine s.context.clearCache t := by
  have hvis (c : Loc) (hc : c ∈ t.tags) : Visible s.context.snapshotId s.engine c.1 := by
    obtain ⟨hlive, hstamp⟩ := hs.holds.live c hc
    have hin : c.1 ≤ s.engine.pageManager.pageCount := by
      by_contra hlt
      exact hlive (.inr (not_le.mp hlt))
    refine ⟨hin, ?_, fun o ho _ ↦ hacc.orphan_ne ho (hs.anchored.root_mem hs.holds hc)⟩
    obtain ⟨hdirty, hheader⟩ := hrest c.1
    cases hst : (s.engine.pageManager.pages c.1).state with
    | unused => exact absurd (by rw [stamp, hst]; rfl) hstamp
    | occupied j =>
      rw [hst] at hheader
      exact ⟨j, hheader, rfl⟩
    | dirty j =>
      rw [hst] at hdirty
      cases hdirty
  have hready : Ready (seen s.engine s.context.clearCache) :=
    ⟨hs.ready.range, Nat.lt_succ_self _, hacc.nodup.sublist (List.filter_sublist.map _),
      fun o ho _ ↦ (hacc.orphan_inFile ho).2⟩
  have hanchored : Anchored (seen s.engine s.context.clearCache) t := by
    have := hs.anchored
    cases t <;> exact this
  exact ⟨⟨⟨hready, holds_seen.mpr ⟨hs.holds.stored, hs.holds.nodup, hvis⟩, hanchored, hs.rough,
    hs.branched, fun c hc ↦ hs.full c (by rwa [cellAt_seen] at hc)⟩, clean_seen,
    fun a c hc ↦ by cases hc⟩, hcan⟩

/-- A batch of real changes drops no copy of a page. -/
private theorem not_abandoned {t t' : Trie Bool} {changes : Changes} {m : List Mishap}
    (h : Applied t (sortChanges changes) t' m) (ht : t.Canonical)
    (ha : Admissible t.lookup changes) (hi : Entries.NoneIdle t.lookup changes)
    (hne : changes ≠ []) : .abandoned ∉ m := by
  have hsuits := ha.suits ht.rough ht.housed
  have hground : Grounded 128 t.lookup (sortChanges changes) :=
    ha.grounded.of_values (fun _ ↦ mem_sortChanges.mp) fun _ _ ↦ mem_sortChanges.mpr
  have hns : ¬ Stalls t.lookup changes := not_stalls fun p hp hnone ↦ hi _ hp hnone
  have hm := h.not_stalled hsuits hground (noStall_of_not_stalls hns ht.rough ht.housed)
  have heff : Effective t (sortChanges changes) :=
    .of_noneIdle ha.batch fun c hc ↦ hi c (mem_sortChanges.mp hc)
  refine h.not_abandoned hsuits hm heff fun hnil ↦ ?_
  apply hne
  exact List.perm_nil.mp (hnil ▸ (List.perm_insertionSort _ changes).symm)

namespace Begun

variable {changes : Changes} {fuel : Nat}

/-- The writer's own view of the trie. -/
theorem shaped (h : Begun s k t) : Shaped s t := by
  have hs := h.version.sound.shaped
  obtain ⟨hst, hnd, hvis⟩ := holds_seen.mp hs.holds
  have hk : k < s.context.snapshotId := by
    rw [h.next]
    exact Nat.lt_succ_self k
  refine ⟨h.accounts.ready hs.ready.range (h.alive.trans_lt hk), ⟨hst, hnd, fun c hc ↦ ?_, ?_⟩, ?_,
    hs.rough, hs.branched, fun c hc hroot ↦ hs.full c ?_ hroot⟩
  · exact (hvis c hc).live h.alive
  · exact oldBelow_of_old fun c hc ↦ (hvis c hc).old hk
  · have := hs.anchored
    cases t <;> exact this
  · rw [cellAt_seen]
    exact hc

/-- A batch of real changes makes the trie of the next snapshot. -/
theorem setValues (h : Begun s k t) (hadm : Admissible t.lookup changes)
    (hidle : Entries.NoneIdle t.lookup changes) (hne : changes ≠ [])
    (hrun : setValues fuel changes s = .ok () s') :
    ∃ t', Version s'.engine s'.context.clearCache t' ∧
      t'.lookup = Entries.update t.lookup changes ∧
      s'.context.rootNodeHash = (Entries.update t.lookup changes).stateRoot ∧
      s'.context.snapshotId = k + 1 ∧ Accounts s' t' := by
  have hshaped := h.shaped
  have hcan := h.version.canonical
  have hns : ¬ Stalls t.lookup changes := not_stalls fun p hp hnone ↦ hidle _ hp hnone
  have hcarries : Carries s t :=
    ⟨hshaped.ready, h.rest.clean, hshaped.holds, hshaped.anchored, hcan⟩
  have hroot := (Contains.setValues ⟨t, hcarries, rfl⟩ hadm hns hrun).2
  obtain ⟨t', m, happ, hw, hshaped'⟩ := hshaped.setValues hadm.fits hrun
  have hflag : (flag s t).lookup = t.lookup := funext fun q ↦ lookup_map ..
  have hcan₀ : (flag s t).Canonical := Canonical.map_iff.mpr hcan
  rw [← hflag] at hadm hns hidle
  obtain ⟨hcan', hlook⟩ := happ.canonical hcan₀ hadm hns
  have hlook' : t'.lookup = Entries.update t.lookup changes := by
    rw [← hflag, ← hlook]
    exact funext fun q ↦ (lookup_map ..).symm
  have hcan' : t'.Canonical := Canonical.map_iff.mp hcan'
  have hid : s'.context.snapshotId = k + 1 := hw.snapshotId.trans h.next
  have hacc := h.accounts.of_balance (hw.balance (not_abandoned happ hcan₀ hadm hidle hne)) hw.count
  have hrest : AtRest (k + 1) s'.engine :=
    h.rest.trace ((acts_setValues fuel changes s).ok hrun) (Nat.le_of_eq h.next)
  have hversion := Version.of_shaped hshaped' hcan' hacc (by rwa [hid])
  exact ⟨t', hversion, hlook', hroot, hid, hacc⟩

end Begun

end TrieDb.Layout
