import TrieDb.Engine.Frame
import TrieDb.Layout.Shape
import TrieDb.Trie.Untouched

/-!
# The locations of contract accounts

`get_account` remembers the cell of an account that has storage, and `get_storage` starts there
instead of at the root. A batch forgets the accounts whose slots it changes. What it does not forget
stays right as long as it is on pages that the batch copies before it writes, and the account is not
deleted.
-/

namespace TrieDb

namespace Layout

open Base Engine Trie

variable {s s' : State Cells} {t t' : Trie Loc} {a path : Nibbles} {c : Loc}

/-- The cell holds the leaf of an account that has, below it, the slots that the trie has below the
address. -/
inductive Leads (s : State Cells) (t : Trie Loc) (a : Nibbles) (c : Loc) : Prop
  | intro {ref : RlpNode} {pre : Nibbles} {info : AccountInfo} {ch : Fin 16 → Trie Loc}
      (length : a.length = 64) (holds : Holds s (node c ref pre (.leaf (.account info)) ch))
      (rough : (ch 0).Rough .slots 64) (inhabited : ∃ r ≠ [], (ch 0).lookup r ≠ none)
      (lookup : ∀ r ≠ [], t.lookup (a ++ r) = (ch 0).lookup r)

/-- All locations that are remembered are right. -/
def Remembers (s : State Cells) (t : Trie Loc) : Prop :=
  ∀ a c, s.context.contractAccountLocCache a = some c → Leads s t a c

namespace Leads

private theorem recontext (h : Leads s t a c) (hs : Recontext s s') : Leads s' t a c := by
  obtain ⟨hlen, hholds, hrough, hinhabited, hlook⟩ := h
  exact ⟨hlen, hs.holds hholds, hrough, hinhabited, hlook⟩

private theorem ne_empty (h : Leads s t a c) : t ≠ empty := by
  obtain ⟨-, -, -, ⟨r, hr, hne⟩, hlook⟩ := h
  rintro rfl
  rw [← hlook r hr] at hne
  exact hne rfl

/-- Other pages may be written, and the trie may change elsewhere. -/
private theorem written {t₀ : Trie Loc} {m : List Mishap} (h : Leads s t a c)
    (hw : Written s t₀ s' t' m) (hold : old s c.1 = true)
    (hlook' : ∀ r ≠ [], t'.lookup (a ++ r) = t.lookup (a ++ r)) :
    Leads s' t' a c := by
  obtain ⟨hlen, hholds, hrough, hinhabited, hlook⟩ := h
  refine ⟨hlen, hw.holds_of_old hholds fun d hd ↦ ?_, hrough, hinhabited, fun r hr ↦ ?_⟩
  · obtain rfl | ⟨i, hi⟩ := mem_tags_node.mp hd
    · exact hold
    · exact hholds.mono.1 hold i d hi
  · rw [hlook' r hr, hlook r hr]

end Leads

/-! ### Reads -/

section
variable [AlloyTrie] {fuel offset p i n : Nat}

/-- Only the path of an account is remembered. -/
private theorem preserves_getValueFromPage {P : State Cells → Prop}
    (hp : path.length ≠ addressPathLength)
    (fuel offset p i : Nat) : Preserves P (getValueFromPage path fuel offset p i) := by
  induction fuel generalizing offset p i with
  | zero => exact .throw _
  | succ fuel ih =>
    refine .bind (preserves_getValue p i) fun n ↦ ?_
    dsimp only
    split
    · exact .pure _
    · split
      · refine .bind (preserves_liftNode _) fun v ↦ .bind ?_ fun _ ↦ .pure _
        cases v with
        | storage x => exact .pure _
        | account x =>
          simp only [noteAccount, hp, and_false, if_false]
          exact .pure _
      · refine .bind ?_ fun next ↦ ?_
        · unfold nextPointer
          split
          · exact .pure _
          · exact .pure _
          · exact .throw _
        · split
          · exact ih _ _ _
          · exact .bind (preserves_getPage _) fun _ ↦ ih _ _ _
          · exact .pure _

/-- `get_storage` changes nothing. -/
theorem preserves_getStorage {P : State Cells → Prop} (hp : path.length ≠ addressPathLength)
    (fuel : Nat) : Preserves P (getStorage fuel path) := by
  refine .bind .get fun s ↦ ?_
  split
  · exact .pure _
  · refine .bind ?_ fun start ↦ ?_
    · refine .bind .get fun s ↦ ?_
      split
      · refine .bind (preserves_getPage _) fun _ ↦ .bind (preserves_getValue _ _) fun n ↦
          .bind (preserves_liftNode _) fun child ↦ ?_
        split
        · exact .pure _
        · exact .pure _
        · exact .bind (preserves_getPage _) fun _ ↦ .pure _
      · exact .bind (preserves_getPage _) fun _ ↦ .pure _
    · split
      · exact .pure _
      · refine .bind (preserves_getValueFromPage hp fuel _ _ _) fun v ↦ ?_
        split
        · exact .pure _
        · exact .pure _

/-- A read of an account leaves the state, or adds the location of the account. -/
def Notes (t : Trie Loc) (path : Nibbles) (s s' : State Cells) : Prop :=
  s' = s ∨ ∃ c, Leads s t path c ∧ s' = finalState (cacheAccount path c.1 c.2 s)

/-- The end of the descent at a value. -/
private theorem notes_value {v : TrieValue}
    (hv : ∀ x, v = .account x → x.storageRoot ≠ emptyRootHash → Leads s t path (p, i)) :
    Notes t path s (finalState ((do
      noteAccount path p i v
      pure (some v)) s)) := by
  cases v with
  | storage x => exact .inl rfl
  | account x =>
    simp only [noteAccount]
    by_cases hx : x.storageRoot ≠ emptyRootHash ∧ path.length = addressPathLength
    · rw [if_pos hx]
      exact .inr ⟨(p, i), hv x rfl hx.1, rfl⟩
    · rw [if_neg hx]
      exact .inl rfl

omit [AlloyTrie] in
/-- The leaf of an account with storage is where the account is. -/
private theorem leads_leaf {t₀ : Trie Loc} {ref : RlpNode} {pre : Nibbles} {info : AccountInfo}
    {ch : Fin 16 → Trie Loc} (h : Holds s (node c ref pre (.leaf (.account info)) ch))
    (hr : (ch 0).Rough .slots 64) (hb : (ch 0).Branched) (hne : ch 0 ≠ empty)
    (hp : path.length = 64)
    (hlook : ∀ q, t₀.lookup (path ++ q) = (node c ref pre (.leaf (.account info)) ch).lookup
      (pre ++ q)) : Leads s t₀ path c := by
  refine ⟨hp, h, hr, ?_, fun r hr ↦ ?_⟩
  · obtain ⟨q, hq⟩ := hb.exists_value hne
    refine ⟨q, ?_, hq⟩
    rintro rfl
    obtain ⟨e, he⟩ := Option.ne_none_iff_exists'.mp hq
    have hlen := hr.admits he
    obtain ⟨v, rfl⟩ := hr.slot he
    cases hlen
  · cases r with
    | nil => exact absurd rfl hr
    | cons j r => rw [hlook, lookup_account_append]

/-- The descent of `get_account`. -/
private theorem notes_getValueFromPage {t₀ : Trie Loc} (hs : Clean s) (h : Holds s t)
    (ht : t.tag? = some (p, i)) (hr : t.Rough .accounts n) (hb : t.Branched) (hn : offset + n = 128)
    (hp : path.length = 64) (hlook : ∀ q, t₀.lookup (path.take offset ++ q) = t.lookup q) :
    Notes t₀ path s (finalState (getValueFromPage path fuel offset p i s)) := by
  induction t generalizing n offset fuel p i with
  | empty => cases ht
  | node c ref pre kind ch ih =>
    cases ht
    cases fuel with
    | zero => exact .inl rfl
    | succ fuel =>
    have hcell := h.cell
    rcases path_cases pre (path.drop offset) with hpre | hpre | ⟨j, r, hpre⟩
    · rw [read_none hcell (by rwa [Kind.pre_node])]
      exact .inl rfl
    · have htake : path.take offset ++ pre = path := by rw [← hpre, List.take_append_drop]
      rw [read_end hcell (by rwa [Kind.pre_node])]
      rcases kind with (info | v) | _
      · by_cases hch : ch 0 = empty
        · apply notes_value
          intro x hx hne
          cases hx
          simp only [hch] at hne
          exact absurd rfl hne
        · apply notes_value
          intro x _ _
          apply leads_leaf h (hr.2.2 0) (hb.2 0) hch hp
          intro q
          rw [← hlook, ← List.append_assoc, htake]
      · exact .inl rfl
      · exact .inl rfl
    · have hlen := congrArg List.length hpre
      rw [List.length_append, List.length_cons, List.length_drop] at hlen
      rcases kind with (info | v) | _
      · have := hr.1.2
        omega
      · have : pre.length = n := hr.1
        omega
      · have hlt := hr.1
        have htake : path.take (offset + pre.length + 1) = path.take offset ++ pre ++ [j] := by
          rw [Nat.add_assoc, List.take_add, hpre, List.append_assoc]
          simp [List.take_append]
        rw [read_next hcell (hpre.trans (by rw [Kind.pre_node]))]
        show Notes t₀ path s
          (finalState (follow (getValueFromPage path fuel _) p (ch j).pointer? s))
        cases htag : (ch j).tag? with
        | none =>
          have : ch j = empty := by
            cases hch : ch j with
            | empty => rfl
            | node => rw [hch] at htag; cases htag
          rw [this]
          exact .inl rfl
        | some d =>
          rw [follow_eq hs (h.child j) (h.linked j) htag]
          apply ih j (h.child j) htag (hr.2 j) (hb.2 j)
          · rw [Kind.pre_node]
            omega
          · intro q
            rw [Kind.pre_node, htake, List.append_assoc, List.append_assoc, hlook]
            exact lookup_branch_append ..

/-- `get_account` remembers at most the account it reads. -/
theorem notes_getAccount (hs : Clean s) (h : Shaped s t) (hp : path.length = 64) (fuel : Nat) :
    Notes t path s (finalState (getAccount fuel path s)) := by
  by_cases hempty : t = empty
  · subst hempty
    simp only [getAccount, bind_apply, get_apply,
      show s.context.rootNodePageId = none from h.anchored]
    exact .inl rfl
  · obtain ⟨q, htag, hroot, hpage⟩ := root_readable hs h.holds h.anchored hempty
    have hnotes : Notes t path s (finalState (getValueFromPage path fuel 0 q 0 s)) :=
      notes_getValueFromPage hs h.holds htag h.rough h.branched (Nat.zero_add _) hp fun q ↦ rfl
    simp only [getAccount, bind_apply, get_apply, hroot, hpage]
    cases hrun : getValueFromPage path fuel 0 q 0 s with
    | error e s' =>
      rw [hrun] at hnotes
      exact hnotes
    | ok v s' =>
      rw [hrun] at hnotes
      rcases v with _ | (_ | _)
      · exact hnotes
      · exact hnotes
      · exact hnotes

end

/-! ### Runs -/

/-- A transaction whose locations are right. -/
structure Sound (s : State Cells) (t : Trie Loc) : Prop where
  shaped : Shaped s t
  clean : Clean s
  remembers : Remembers s t

/-- A batch that leaves the accounts alone whose locations it does not forget: they are on pages of
earlier snapshots, which are copied before they are written, and they are not deleted. -/
def Safe (s : State Cells) (changes : Changes) : Prop :=
  ∀ a c, (invalidateCache changes s.context).contractAccountLocCache a = some c →
    old s c.1 = true ∧ (a, none) ∉ changes

/-- A context with the same root has the same trie. -/
theorem Shaped.recontext (h : Shaped s t) (hs : Recontext s s')
    (hroot : s'.context.rootNodePageId = s.context.rootNodePageId)
    (hhash : s'.context.rootNodeHash = s.context.rootNodeHash) : Shaped s' t where
  ready := hs.ready h.ready
  holds := hs.holds h.holds
  anchored := by
    have := h.anchored
    cases t with
    | empty => exact hroot.trans this
    | node c ref pre kind ch => exact ⟨this.1, hroot.trans this.2.1, this.2.2.trans (by rw [hhash])⟩
  rough := h.rough
  branched := h.branched
  full c hc := h.full c (by rwa [← hs.cellAt])

namespace Sound

/-- A read of an account keeps the locations right. -/
theorem notes (h : Sound s t) (hn : Notes t path s s') : Sound s' t := by
  obtain rfl | ⟨c, hc, rfl⟩ := hn
  · exact h
  · have hs : Recontext s (finalState (cacheAccount path c.1 c.2 s)) := ⟨rfl, rfl, rfl⟩
    refine ⟨h.shaped.recontext hs rfl rfl, h.clean, fun a d hd ↦ ?_⟩
    have hd : Function.update s.context.contractAccountLocCache path (some (c.1, c.2)) a = some d :=
      hd
    by_cases ha : a = path
    · subst ha
      rw [Function.update_self] at hd
      cases hd
      exact hc.recontext hs
    · rw [Function.update_of_ne ha] at hd
      exact (h.remembers a d hd).recontext hs

end Sound

section
variable {changes : Changes} {fuel : Nat}

/-- A path of changes that leads into the storage of an account starts with its address. -/
private theorem take_address {d r : Nibbles} (hp : d <+: a ++ r) (ha : a.length = 64)
    (hd : 64 ≤ d.length) : d.take addressPathLength = a := by
  obtain ⟨x, hx⟩ := hp
  have htake : (d ++ x).take 64 = d.take 64 := List.take_append_of_le_length hd
  rw [addressPathLength, ← htake, hx, ← ha, List.take_left]

/-- A batch does not touch the slots of an account that it does not forget or delete. -/
private theorem untouched_slots {ctx : TransactionContext} (hfits : Fits .accounts 128 changes)
    (ha : a.length = 64)
    (hc : (invalidateCache changes ctx).contractAccountLocCache a = some c)
    (hdelete : (a, none) ∉ changes) {r : Nibbles} (hr : r ≠ []) :
    Untouched (sortChanges changes) (a ++ r) := by
  have hpos := List.length_pos_iff.mpr hr
  have hslots := (invalidateCache_eq_some hc).2
  intro d hd htouch
  have hd : d ∈ changes := (List.perm_insertionSort _ _).mem_iff.mp hd
  have hprefix : d.1 <+: a ++ r := by
    obtain heq | ⟨-, hp⟩ := htouch
    · exact heq ▸ List.prefix_rfl
    · exact hp
  rcases hfits.length hd with hlen | hlen
  · -- the change of an account above the slots is a delete of it
    have htake := take_address hprefix ha (by omega)
    rw [addressPathLength, List.take_of_length_le (by omega)] at htake
    obtain heq | ⟨hnone, -⟩ := htouch
    · rw [htake] at heq
      have := congrArg List.length heq
      rw [List.length_append] at this
      omega
    · apply hdelete
      rw [← htake, ← hnone]
      exact hd
  · exact hslots d hd hlen (take_address hprefix ha (by omega))

variable [AlloyTrie]

/-- A safe batch keeps the locations right that it does not forget. -/
private theorem Sound.setValues (h : Sound s t) (hc : Fits .accounts 128 changes)
    (hsafe : Safe s changes) (hrun : setValues fuel changes s = .ok () s') : ∃ t', Sound s' t' := by
  obtain ⟨t', m, happ, hw, hshaped⟩ := h.shaped.setValues hc hrun
  have hframe := frame_setValues hrun
  have hfits : Fits .accounts 128 (sortChanges changes) :=
    fun d hd ↦ hc d ((List.perm_insertionSort _ _).mem_iff.mp hd)
  refine ⟨t', hshaped, h.clean.of_cleaner hw.cleaner, fun a c hac ↦ ?_⟩
  have hleads := h.remembers a c (hframe.cache a c hac)
  obtain ⟨q, -, hroot⟩ := h.shaped.anchored.tag hleads.ne_empty
  have hkept := cache_setValues (by rw [hroot]; exact Option.some_ne_none _) hrun hac
  obtain ⟨hold, hdelete⟩ := hsafe a c hkept
  apply hleads.written hw hold
  intro r hr
  have hlen : a.length = 64 := by
    obtain ⟨hlen, -, -, -, -⟩ := hleads
    exact hlen
  have hlook := happ.lookup_untouched (rough_map.mpr h.shaped.rough) hfits
    (untouched_slots hc hlen hkept hdelete hr)
  rwa [flag, flag, lookup_map, lookup_map] at hlook

/-- Calls of `get_account`, `get_storage` and `set_values` on one context, each batch with account
changes at the paths of accounts and slot changes at those of slots. The reads may fail; a batch
succeeds and is safe. -/
inductive Uses (s : State Cells) : State Cells → Prop
  | nil : Uses s s
  | account {s₁ : State Cells} {path : Nibbles} (fuel : Nat) (h : Uses s s₁)
      (hp : path.length = addressPathLength) : Uses s (finalState (getAccount fuel path s₁))
  | slot {s₁ : State Cells} {path : Nibbles} (fuel : Nat) (h : Uses s s₁)
      (hp : path.length = storagePathLength) : Uses s (finalState (getStorage fuel path s₁))
  | batch {s₁ s' : State Cells} {changes : Changes} {fuel : Nat} (h : Uses s s₁)
      (hc : Fits .accounts 128 changes) (hsafe : Safe s₁ changes)
      (hrun : Engine.setValues fuel changes s₁ = .ok () s') : Uses s s'

private theorem Uses.sound (h : Uses s s') (hs : Shaped s t) (hclean : Clean s)
    (hcache : ∀ a, s.context.contractAccountLocCache a = none) : ∃ t', Sound s' t' := by
  induction h with
  | nil =>
    refine ⟨t, hs, hclean, fun a c hc ↦ ?_⟩
    rw [hcache a] at hc
    cases hc
  | account fuel _ hp ih =>
    obtain ⟨t', ht'⟩ := ih
    exact ⟨t', ht'.notes (notes_getAccount ht'.clean ht'.shaped hp fuel)⟩
  | slot fuel _ hp ih =>
    obtain ⟨t', ht'⟩ := ih
    have hne : storagePathLength ≠ addressPathLength := by decide
    rw [← hp] at hne
    exact ⟨t', (preserves_getStorage (P := fun s ↦ Sound s t') hne fuel).final ht'⟩
  | batch _ hc hsafe hrun ih =>
    obtain ⟨t', ht'⟩ := ih
    exact ht'.setValues hc hsafe hrun

/-! ### Answers -/

omit [AlloyTrie] in
/-- The descent starts at the storage of the account. -/
private theorem storageStart_eq {ref : RlpNode} {pre : Nibbles} {info : AccountInfo}
    {ch : Fin 16 → Trie Loc} {d : Loc} (hs : Clean s)
    (h : Holds s (node c ref pre (.leaf (.account info)) ch)) (hd : (ch 0).tag? = some d)
    (hc : s.context.contractAccountLocCache (path.take addressPathLength) = some c) (root : Nat) :
    storageStart path root s = .ok (some (addressPathLength, d.1, d.2)) s := by
  have hchild := h.child 0
  have hlink := h.linked 0
  have hpage : getPage c.1 s = .ok (s.engine.pageManager.pages c.1) s := getPage_eq hs h.root_live
  have hnode : getValue c.1 c.2 s = _ := getValue_eq h.cell
  simp only [storageStart, bind_apply, get_apply, hc, hpage, hnode]
  cases hch : ch 0 with
  | empty =>
    rw [hch] at hd
    cases hd
  | node e ref' pre' kind' ch' =>
    rw [hch] at hd hchild hlink
    cases hd
    simp only [Kind.node, Node.directChild, liftNode, pure_apply, hch, pointer?, nodeLocation]
    by_cases hi : d.2 = 0
    · simp only [hi, if_true, bind_apply, getPage_eq hs hchild.root_live, pure_apply]
    · have hp : d.1 = c.1 := hlink d rfl hi
      simp only [hi, if_false, hp, pure_apply]

/-- A location that is right gives the slots of the account. -/
private theorem Leads.reads (h : Leads s t (path.take addressPathLength) c) (hs : Clean s)
    (hroot : s.context.rootNodePageId ≠ none)
    (hc : s.context.contractAccountLocCache (path.take addressPathLength) = some c)
    (hp : path.length = 128) (hf : 130 ≤ fuel) :
    Reads (getStorage fuel path) s (Entries.slot t.lookup path) := by
  obtain @⟨ref, pre, info, ch, -, hholds, hrough, ⟨r, -, hne⟩, hlook⟩ := h
  obtain ⟨root, hroot⟩ := Option.ne_none_iff_exists'.mp hroot
  cases hd : (ch 0).tag? with
  | none =>
    cases hch : ch 0 with
    | empty =>
      rw [hch] at hne
      exact absurd rfl hne
    | node =>
      rw [hch] at hd
      cases hd
  | some d =>
    have hdrop : (path.drop addressPathLength).length = 64 := by
      rw [List.length_drop, hp]
      rfl
    have hread := reads_slots (p := d.1) (i := d.2) hs (hholds.child 0) hd hrough hdrop
      (Nat.lt_of_lt_of_le (by decide) hf)
    obtain ⟨s', hrun, heng⟩ := hread
    have hslot : t.lookup path = (ch 0).lookup (path.drop addressPathLength) := by
      rw [← hlook _ (List.length_pos_iff.mp (by omega)), List.take_append_drop]
    refine ⟨s', ?_, heng⟩
    simp only [getStorage, bind_apply, get_apply, hroot, storageStart_eq hs hholds hd hc, hrun,
      Entries.slot, Entries.value, hslot]
    rcases (ch 0).lookup (path.drop addressPathLength) with _ | (_ | _) <;> rfl

/-- With right locations, `get_storage` finds the slot at a path. -/
theorem Sound.reads (h : Sound s t) (hp : path.length = 128) (hf : 130 ≤ fuel) :
    Reads (getStorage fuel path) s (Entries.slot t.lookup path) := by
  cases hc : s.context.contractAccountLocCache (path.take addressPathLength) with
  | none => exact getStorage_reads h.clean h.shaped.holds h.shaped.anchored h.shaped.rough hc hp hf
  | some c =>
    have hleads := h.remembers _ c hc
    obtain ⟨q, -, hroot⟩ := h.shaped.anchored.tag hleads.ne_empty
    exact hleads.reads h.clean (by rw [hroot]; exact Option.some_ne_none _) hc hp hf

omit [AlloyTrie] in
private theorem Sound.uncached (h : Sound s t) : Sound (uncached s) t where
  shaped := h.shaped.recontext ⟨rfl, rfl, rfl⟩ rfl rfl
  clean := h.clean
  remembers a c hc := by cases hc

end

/-! ### Runs on a new file -/

/-- A later transaction, with another snapshot. -/
def later (n : Nat) (s : State Cells) : State Cells :=
  { s with context := { s.context with snapshotId := n } }

private theorem Shaped.later (h : Shaped s t) {n : Nat} (hn : s.engine.aliveSnapshot < n)
    (hold : ∀ q, stamp s q ≠ some n) : Shaped (later n s) t where
  ready := ⟨h.ready.range, hn, h.ready.nodup, h.ready.below⟩
  holds := by
    refine ⟨h.holds.stored, h.holds.nodup, h.holds.live, ?_⟩
    have hall (u : Trie Loc) : OldBelow (Layout.later n s) u := by
      induction u with
      | empty => trivial
      | node c ref pre kind ch ih => exact ⟨fun _ i d _ ↦ decide_eq_true (hold d.1), ih⟩
    exact hall t
  anchored := by
    cases t with
    | empty => exact h.anchored
    | node => exact h.anchored
  rough := h.rough
  branched := h.branched
  full := h.full

private theorem Clean.later (h : Clean s) (n : Nat) : Clean (later n s) := h

/-- The transaction after the one that wrote an account with a slot. -/
def reopened : State Cells := later 2 (after accountAndSlot created)

/-- What a read returns, if it returns. -/
def answer (q : Nibbles) (s : State Cells) : Option (Option U256) :=
  match getStorage 130 q s with
  | .ok v _ => some v
  | .error .. => none

end Layout

end TrieDb
