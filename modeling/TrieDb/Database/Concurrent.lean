import TrieDb.Database.Isolation

/-!
# Readers beside a commit

While one thread commits, other threads begin to read, read and end. A commit is here a sequence of
actions on pages, on the orphan list and on its own context (`Trace`), and between any two of them
readers may call. What they see is still what the snapshots promise, as if the commit had happened
at once when it returned. An action and a call of a reader are one step each: the locks under which
they run (of the metadata, of the transaction manager) are not modelled, nor who waits for them.
-/

namespace TrieDb

open Meta Engine Layout Base

/-- A commit whose writes are under way: the pages at hand, the state of the writer, and what
`set_values` is going to return. -/
structure Ongoing where
  held : List Nat
  state : State Cells
  result : EStateM.Result Error (State Cells) Unit

/-- A store, with the commit that is under way. -/
structure Concurrent where
  store : Store
  commit : Option Ongoing

namespace Concurrent

section
variable [SlotHash] [AlloyTrie]

/-- One call, or one internal step of a commit. -/
inductive Step : Concurrent → Option Event → Concurrent → Prop
  | call {s e s'} (h : Store.Step s e s') (he : e ≠ .commit) (he' : e ≠ .panic) :
      Step ⟨s, none⟩ (some e) ⟨s', none⟩
  | beside {s e s' w} (h : Store.Step s e s') (he : e.OfReader) :
      Step ⟨s, some w⟩ (some e) ⟨s', some w⟩
  | start {s tx fuel changes} (hw : s.writer = .writing tx)
      (hperm : tx.pendingChanges.Perm changes) :
      Step ⟨s, none⟩ none
        ⟨s, some ⟨[], s.state tx.context,
          WriteTx.write fuel changes (s.state tx.context)⟩⟩
  -- an action from which the writes still end as they do
  | act {s w held t} (h : Action false (w.held, w.state) (held, t))
      (hrest : Trace false (held, t) ([], finalState w.result)) :
      Step ⟨s, some w⟩ none ⟨s.amid t, some { w with held := held, state := t }⟩
  | finish {s t m} (hm : s.transactionManager.removeTx t.context.snapshotId true = some m) :
      Step ⟨s, some ⟨[], t, .ok () t⟩⟩ (some .commit) ⟨s.finish t m, none⟩
  | fail {s t err} (he : err ≠ .outOfFuel) :
      Step ⟨s, some ⟨[], t, .error err t⟩⟩ (some .panic) ⟨s.fail t, none⟩

/-- The store is in the state that its users see; during a commit in the one before it. -/
inductive Refines : Concurrent → Snapshots → Prop
  | idle {s a} (h : Store.Refines s a) : Refines ⟨s, none⟩ a
  | busy {s w a changes} (h : Store.Working s w.held w.state a) (ha : a.writer = .writing changes)
      (hrest : Trace false (w.held, w.state) ([], finalState w.result))
      (hmade : Snapshots.Orderly a .commit → ∀ t, w.result = .ok () t →
        ∃ t', Store.Made t (a.committed.update changes) t') : Refines ⟨s, some w⟩ a

omit [SlotHash] in
/-- The writes of a commit are actions to their end. -/
private theorem trace_write (fuel : Nat) (changes : Engine.Changes) (s : State Cells) :
    Trace false ([], s) ([], finalState (WriteTx.write fuel changes s)) := by
  have hacts := Store.acts_write fuel changes s
  cases hrun : WriteTx.write fuel changes s with
  | ok v t => exact (hacts.ok hrun).allow_refusals
  | error err t => exact (hacts.error hrun).allow_refusals

private theorem simulates : Simulates Step (Stutters Snapshots.Step) (OnVisible Snapshots.Orderly)
    Refines := by
  intro c a l c' h hok hs
  cases hs with
  | call hs he he' =>
    cases h with
    | idle h =>
      obtain ⟨a', ha, h'⟩ := h.step hok hs
      exact ⟨a', ha, .idle h'⟩
  | beside hs he =>
    cases h with
    | busy h ha hrest hmade =>
      obtain ⟨reading, hstep, h'⟩ := h.reader (by simp [ha]) hs he
      exact ⟨_, hstep, .busy h' ha hrest hmade⟩
  | @start s tx fuel changes hw hperm =>
    cases h with
    | idle h =>
      exact ⟨a, rfl, .busy (h.working hw) (h.writer_eq hw) (trace_write fuel changes _)
        fun hok t hrun ↦ h.made hw hok hperm hrun⟩
  | act hact hrest =>
    cases h with
    | busy h ha _ hmade => exact ⟨a, rfl, .busy (h.act hact) ha hrest hmade⟩
  | finish hm =>
    cases h with
    | busy h ha _ hmade =>
      obtain ⟨t', ht'⟩ := hmade hok _ rfl
      exact ⟨_, .commit ha, .idle (h.finish hm ht')⟩
  | fail he =>
    cases h with
    | busy h ha => exact ⟨_, .panic ha, .idle h.fail⟩

/-- The writes of a commit can go on to their end. -/
private theorem acts {s : Store} {result : EStateM.Result Error (State Cells) Unit}
    {x y : List Nat × State Cells} (h : Trace false x y)
    (hend : Trace false y ([], finalState result)) : ∃ n,
    Traced Step ⟨s.amid x.2, some ⟨x.1, x.2, result⟩⟩ (List.replicate n none)
      ⟨s.amid y.2, some ⟨y.1, y.2, result⟩⟩ := by
  induction h with
  | refl => exact ⟨0, .nil⟩
  | tail _ hact ih =>
    obtain ⟨n, hn⟩ := ih (.trans (.one hact) hend)
    refine ⟨n + 1, ?_⟩
    rw [List.replicate_succ']
    exact .snoc none hn (.act hact hend)

/-- A commit under way comes to its end. -/
private theorem Refines.ends {s : Store} {w : Ongoing} {a : Snapshots} (h : Refines ⟨s, some w⟩ a) :
    ∃ n c, Traced Step ⟨s, some w⟩ (List.replicate n none) c ∧
      match w.result with
      | .ok _ _ => ∃ c', Step c (some .commit) c'
      | .error err _ => err ≠ .outOfFuel → ∃ c', Step c (some .panic) c' := by
  cases h with
  | busy h ha hrest hmade =>
    obtain ⟨held, t, result⟩ := w
    obtain ⟨n, hn⟩ := acts (s := s) hrest .refl
    rw [h.moment] at hn
    refine ⟨n, _, hn, ?_⟩
    obtain ⟨openTxs, b, hsorted⟩ := (h.trace hrest).sorted
    cases result with
    | ok v t =>
      obtain ⟨m, hm⟩ := Store.removeTx_writer hsorted
      exact ⟨_, .finish hm⟩
    | error err t => exact fun he ↦ ⟨_, .fail he⟩

/-- Calls while no commit is under way. -/
private theorem calls {s s' : Store} {ls : List Event} (h : Traced Store.Step s ls s')
    (hls : .commit ∉ ls ∧ .panic ∉ ls) : Traced Step ⟨s, none⟩ (ls.map some) ⟨s', none⟩ := by
  induction h with
  | nil => exact .nil
  | snoc l _ hstep ih =>
    simp only [List.mem_append, List.mem_singleton, not_or] at hls
    rw [List.map_append]
    exact (ih ⟨hls.1.1, hls.2.1⟩).snoc _
      (.call hstep (fun he ↦ hls.1.2 he.symm) fun he ↦ hls.2.2 he.symm)

end

/-! ### A run -/

/-- A reader begins after the commit has, and does not see what is committed. -/
def besideFirst (n : Nat) : List (Option Event) :=
  Store.prepare.map some ++ [none, some .beginRo] ++ List.replicate n none ++ [some .commit] ++
    [some (.read (.reader 0) (.getStorageSlot (path 0 ++ path 1) none))]

/-- The store when the reader has begun. -/
def besidePrepared : Store :=
  { Store.prepared with
    transactionManager :=
      Store.prepared.transactionManager.beginRo Store.prepared.readContext.snapshotId
    readers := Store.prepared.readContext :: Store.prepared.readers }

private theorem traced_besideFirst :
    letI := fxSlotHash
    ∃ n c, Traced Step ⟨.created 64, none⟩ (besideFirst n) c := by
  let _ := fxSlotHash
  have hrun : WriteTx.write 8 accountAndSlot Layout.created =
      .ok () (after accountAndSlot Layout.created) := setValues_accountAndSlot
  generalize hafter : after accountAndSlot Layout.created = t at hrun
  have hprepare : Traced Step ⟨.created 64, none⟩ (Store.prepare.map some) ⟨Store.prepared, none⟩ :=
    calls Store.traced_prepare (by simp [Store.prepare])
  have hstate : Store.prepared.state (Store.created 64).writeContext = Layout.created := rfl
  have hstart := @Step.start _ _ Store.prepared ⟨(Store.created 64).writeContext, accountAndSlot⟩ 8
    accountAndSlot rfl (.refl _)
  simp only [hstate] at hstart
  rw [hrun] at hstart
  have hbeside : Step ⟨Store.prepared, some ⟨[], Layout.created, .ok () t⟩⟩ (some .beginRo)
      ⟨besidePrepared, some ⟨[], Layout.created, .ok () t⟩⟩ :=
    .beside (.beginRo Store.prepared) trivial
  have htrace : Trace false ([], Layout.created) ([], t) :=
    ((Store.acts_write 8 accountAndSlot Layout.created).ok hrun).allow_refusals
  obtain ⟨n, hn⟩ : ∃ n, Traced Step ⟨besidePrepared, some ⟨[], Layout.created, .ok () t⟩⟩
      (List.replicate n none) ⟨besidePrepared.amid t, some ⟨[], t, .ok () t⟩⟩ :=
    @acts _ _ besidePrepared _ _ _ htrace .refl
  have hfinish : Step ⟨besidePrepared.amid t, some ⟨[], t, .ok () t⟩⟩ (some .commit)
      ⟨besidePrepared.finish t ⟨false, [0, 0]⟩, none⟩ :=
    .finish (by rw [← hafter, Store.snapshotId_accountAndSlot]; rfl)
  have hread : Store.Step (besidePrepared.finish t ⟨false, [0, 0]⟩)
      (.read (.reader 0) (.getStorageSlot (path 0 ++ path 1) none)) _ :=
    .read rfl (.getStorageSlot rfl (Nat.le_refl 130)
      (Store.ok_of_answer (by rw [← hafter]; decide +kernel)))
  exact ⟨n, _, ((((hprepare.snoc _ hstart).snoc _ hbeside).append hn).snoc _ hfinish).snoc _
    (.call hread (by simp) (by simp))⟩

private theorem obeys_besideFirst (n : Nat) :
    Obeys Snapshots.Step Snapshots.Orderly (.opened .empty)
    (besideFirst n).reduceOption := by
  have hlabels : (besideFirst n).reduceOption = Store.prepare ++ [.beginRo] ++ [.commit] ++
      [.read (.reader 0) (.getStorageSlot (path 0 ++ path 1) none)] := by
    have hnone : (List.replicate n (none : Option Event)).reduceOption = [] := by
      simp [List.reduceOption]
    simp only [besideFirst, List.reduceOption_append, hnone, List.append_nil]
    rfl
  rw [hlabels]
  exact Store.obeys_prepare (by simp [Event.OfReader]) (by simp)

/-! ### Every run -/

variable {capacity : Nat} {ls : List (Option Event)} {c : Concurrent}

private theorem refines [SlotHash] [AlloyTrie] (h : Traced Step ⟨.created capacity, none⟩ ls c)
    (hok : Obeys Snapshots.Step Snapshots.Orderly (.opened .empty) ls.reduceOption) :
    ∃ a, Traced Snapshots.Step (.opened .empty) ls.reduceOption a ∧ Refines c a := by
  obtain ⟨a, ha, href⟩ := simulates.traced (.idle (.created capacity)) h hok.stutters
  exact ⟨a, ha.visible, href⟩

/-- Snapshot isolation beside commits: in every interleaving of the calls of readers with the page
operations of commits, all calls return what they return on snapshots, where a commit happens at
once. -/
theorem isolation_beside_commits [SlotHash] [AlloyTrie]
    (h : Traced Step ⟨.created capacity, none⟩ ls c)
    (hok : Obeys Snapshots.Step Snapshots.Orderly (.opened .empty) ls.reduceOption) :
    ∃ a, Traced Snapshots.Step (.opened .empty) ls.reduceOption a := by
  obtain ⟨a, ha, -⟩ := refines h hok
  exact ⟨a, ha⟩

/-- A reader beside the first commit reads what the snapshots say. -/
theorem isolation_beside_first :
    letI := fxSlotHash
    ∃ n c a, Traced Step ⟨.created 64, none⟩ (besideFirst n) c ∧
      Traced Snapshots.Step (.opened .empty) (besideFirst n).reduceOption a := by
  let _ := fxSlotHash
  obtain ⟨n, c, h⟩ := traced_besideFirst
  obtain ⟨a, ha⟩ := isolation_beside_commits h (obeys_besideFirst n)
  exact ⟨n, c, a, h, ha⟩

/-- Beside a commit no call of a reader fails: at every moment that a run reaches, the store answers
what the snapshots allow readers to call. The commit can always go on to its end, where it returns
or panics as `set_values` did. -/
theorem answered_beside_commits [SlotHash] [AlloyTrie]
    (h : Traced Step ⟨.created capacity, none⟩ ls c)
    (hok : Obeys Snapshots.Step Snapshots.Orderly (.opened .empty) ls.reduceOption) :
    ∃ a, Traced Snapshots.Step (.opened .empty) ls.reduceOption a ∧
      (∀ e a', Snapshots.Step a e a' → e.OfReader → ∃ e' c', e.Same e' ∧ Step c (some e') c') ∧
      ∀ w, c.commit = some w → ∃ n c', Traced Step c (List.replicate n none) c' ∧
        match w.result with
        | .ok _ _ => ∃ c'', Step c' (some .commit) c''
        | .error err _ => err ≠ .outOfFuel → ∃ c'', Step c' (some .panic) c'' := by
  obtain ⟨a, ha, href⟩ := refines h hok
  refine ⟨a, ha, fun e a' hstep he ↦ ?_, fun w hw ↦ ?_⟩
  · cases href with
    | idle h =>
      obtain ⟨e', s', hsame, hs⟩ := h.offers hstep he.ne.1 he.ne.2
      have he' := hsame.ofReader he
      exact ⟨e', _, hsame, .call hs he'.ne.1 he'.ne.2⟩
    | busy h hwriter =>
      obtain ⟨openTxs, b, hsorted⟩ := h.sorted
      obtain ⟨e', s', hsame, hs⟩ := h.toServes.offers hsorted (fun _ ↦ hsorted.hasWriter) hstep he
      exact ⟨e', _, hsame, .beside hs (hsame.ofReader he)⟩
  · obtain ⟨s, commit⟩ := c
    cases hw
    exact href.ends

/-- A reader beside the first commit is answered. -/
theorem answered_beside_first :
    letI := fxSlotHash
    ∃ n c a, Traced Step ⟨.created 64, none⟩ (besideFirst n) c ∧
      Traced Snapshots.Step (.opened .empty) (besideFirst n).reduceOption a ∧
      ∀ e a', Snapshots.Step a e a' → e.OfReader → ∃ e' c', e.Same e' ∧ Step c (some e') c' := by
  let _ := fxSlotHash
  obtain ⟨n, c, h⟩ := traced_besideFirst
  obtain ⟨a, ha, hcalls, -⟩ := answered_beside_commits h (obeys_besideFirst n)
  exact ⟨n, c, a, h, ha, hcalls⟩

end Concurrent

end TrieDb
