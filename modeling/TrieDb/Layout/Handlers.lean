import TrieDb.Layout.Steps
import TrieDb.Trie.Changes

/-!
# The handlers of the write recursion

Every handler, run on a trie in the file, does what the recursion on tries says, provided that the
recursive calls do.
-/

namespace TrieDb.Layout

open Meta Base Engine Trie

variable [AlloyTrie] {s s₁ s' : State Cells} {p i : Nat} {t t' : Trie Loc} {cs : Changes}
  {m : List Mishap} {P : Nat → State Cells → Prop}

/-- How what is reported to the parent fits the trie that is left. -/
def Reports (t : Trie Loc) (o : Out) (t' : Trie Loc) : PointerChange → Prop
  | .none => o = .none ∧ t'.tag? = t.tag? ∧ t'.ref? = t.ref?
  | .update pointer => o = .update ∧ t'.pointer? = some pointer ∧
      (t'.tag? = t.tag? ∨ ∃ q, t'.tag? = some (q, 0))
  | .delete => o = .delete ∧ t' = empty

/-- A part of the recursion that ended. -/
def Done (mode : Mode) (s : State Cells) (t : Trie Loc) (cs : Changes) (change : PointerChange)
    (s' : State Cells) : Prop :=
  ∃ t' o m, Exec mode (flag s t) cs o (flag s' t') m ∧ Step s t s' t' m ∧ Reports t o t' change

/-- A part of the recursion that was stopped to split a page. -/
def Halted (mode : Mode) (s : State Cells) (t : Trie Loc) (p : Nat) (cs : Changes) (n : Nat)
    (s' : State Cells) : Prop :=
  ∃ s₁ t₁ m fuel, Exec mode (flag s t) cs (.stop n) (flag s₁ t₁) m ∧ Step s t s₁ t₁ m ∧
    t₁.tag? = t.tag? ∧ t₁.ref? = t.ref? ∧ splitPage fuel p s₁ = .ok () s'

/-- The recursive calls do what the recursion on tries says. -/
def Visits (visit : Changes → Nat → Nat → Nat → EngineM Cells PointerChange) : Prop :=
  ∀ s t changes offset p i, Placed s t p i → Sorted (rel offset changes) →
    Ensures (visit changes offset p i) s (Done .node s t (rel offset changes))
      (OnSplit (Halted .node s t p (rel offset changes)))

omit [AlloyTrie] in
/-- A change is reported only at the end. -/
theorem Reports.ended {o : Out} {change : PointerChange} (h : Reports t o t' change) :
    o.ended = true := by
  cases change <;> · rw [h.1]; rfl

omit [AlloyTrie] in
/-- A report depends on the place and the reference of the trie before. -/
theorem Reports.congr {u : Trie Loc} {o : Out} {change : PointerChange} (h : Reports t o t' change)
    (ht : t.tag? = u.tag?) (hr : t.ref? = u.ref?) : Reports u o t' change := by
  cases change with
  | none => exact ⟨h.1, h.2.1.trans ht, h.2.2.trans hr⟩
  | update pointer => exact ⟨h.1, h.2.1, h.2.2.imp (fun h ↦ h.trans ht) id⟩
  | delete => exact h

omit [AlloyTrie] in
/-- The trie that is left can be pointed to from the page of the node above. -/
theorem Reports.linked {o : Out} {change : PointerChange} (h : Reports t o t' change)
    (hl : t.Linked p) : t'.Linked p := by
  cases change with
  | none => exact linked_congr hl h.2.1
  | update pointer =>
    rcases h.2.2 with ht | ⟨q, hq⟩
    · exact linked_congr hl ht
    · exact linked_of_tag hq (.inr rfl)
  | delete =>
    rw [h.2]
    exact linked_empty p

/-! ### Pages -/

section
variable {visit : Changes → Nat → Nat → Nat → EngineM Cells PointerChange}

private theorem retryLoop_spec (hv : Visits visit) (offset splits : Nat) {changes : Changes}
    (h : Placed s t p 0) (hcs : Sorted (rel offset changes)) :
    Ensures (retryLoop visit offset p splits changes) s (Done .page s t (rel offset changes))
      (OnSplit P) := by
  have hdone {s : State Cells} {t : Trie Loc} {changes : Changes} (change : PointerChange)
      (s' : State Cells) :
      Done .node s t (rel offset changes) change s' →
        Done .page s t (rel offset changes) change s' :=
    fun ⟨t', o, m, he, hstep, hr⟩ ↦ ⟨t', o, m, .pageDone he hr.ended, hstep, hr⟩
  induction splits generalizing s t changes with
  | zero =>
    have hvisit := hv s t changes offset p 0 h hcs
    simp only [Ensures, retryLoop] at hvisit ⊢
    cases hx : visit changes offset p 0 s with
    | ok change s₁ =>
      simp only [hx] at hvisit ⊢
      exact hdone change s₁ hvisit
    | error e s₁ => cases e <;> simp [OnSplit]
  | succ splits ih =>
    have hvisit := hv s t changes offset p 0 h hcs
    simp only [Ensures, retryLoop] at hvisit ih ⊢
    cases hx : visit changes offset p 0 s with
    | ok change s₁ =>
      simp only [hx] at hvisit ⊢
      exact hdone change s₁ hvisit
    | error e s₁ =>
      simp only [hx] at hvisit
      cases e with
      | pageSplit n =>
        obtain ⟨s₀, t₀, m₀, fuel, he, hstep, htag, href, hsplit⟩ := hvisit n rfl
        have h₀ := h.step hstep htag
        obtain ⟨t₁, htag₁, href₁, hflag, hstep₁⟩ :=
          (splitPage_spec (P := P) fuel h₀.ready h₀.holds h₀.tag h₀.current).ok hsplit
        have h₁ := h₀.step hstep₁ (htag₁.trans h₀.tag.symm)
        have hdrop : rel offset (changes.drop n) = (rel offset changes).drop n := by
          simp [rel, List.map_drop]
        have hrec := ih h₁ (by rw [hdrop]; exact hcs.sublist (List.drop_sublist _ _))
        refine Ensures.mono (Q := Done .page s₁ t₁ (rel offset (changes.drop n)))
          (E := OnSplit P) hrec ?_ fun _ _ h ↦ h
        rintro change s' ⟨t', o, m, he', hstep', hr⟩
        refine ⟨t', o, m₀ ++ m, .pageRetry he ?_, ?_, hr.congr (htag₁.trans ?_) (href₁.trans href)⟩
        · rw [hflag, hdrop] at he'
          exact he'
        · simpa using (hstep.trans hstep₁).trans hstep'
        · exact h.tag.symm
      | _ => simp [OnSplit]

omit [AlloyTrie] in
/-- A copied trie is at the first cell of its page. -/
private theorem Cloned.placed {id : Nat} (h : Cloned s t id s' t') : Placed s' t' id 0 :=
  ⟨h.evolves.ready, h.holds, h.tag, h.current, .inl rfl⟩

omit [AlloyTrie] in
/-- A step on the copy of a page, which is then given back. -/
private theorem Cloned.step {id : Nat} {s₂ : State Cells} {t₂ : Trie Loc} (h : Cloned s t id s₁ t')
    (hstep : Step s₁ t' s₂ t₂ m) :
    Step s t (release s₂ id) t₂ m ∧ Layout.flag (release s₂ id) t₂ = Layout.flag s₂ t₂ := by
  have ho : old s₂ id = false := by rw [hstep.evolves.old_eq h.placed.live.1, h.current]
  have he : Evolves s₂ t₂.tags (release s₂ id) t₂.tags :=
    evolves_release hstep.evolves.ready ho hstep.holds.live
  refine ⟨⟨hstep.holds.release hstep.evolves.ready ho, (h.evolves.trans hstep.evolves).trans he,
    fun r hr ↦ ?_, fun hm ↦ ?_, fun hs ↦ ?_⟩, hstep.holds.flag_eq he⟩
  · obtain ⟨hr, hne⟩ := dirty_release r hr
    exact (h.dirty r (hstep.cleaner r hr)).resolve_left hne
  · have hc := h.evolves.count.trans hstep.evolves.count
    exact (h.balance.trans (hstep.balance hm) h.evolves.count hstep.evolves.count).trans
      balance_release hc he.count
  · have hc := h.clears hs
    have hc' := hc.trans (hstep.clears (hc.full hs)) h.evolves.vacant
    refine hc'.trans (.of_cells (fun c hc ↦ (hstep.holds.live c hc).1) fun c hc _ ↦ ?_)
      (h.evolves.trans hstep.evolves).vacant
    rwa [cellAt_release] at hc

omit [AlloyTrie] in
private theorem Evolves.keep {R R' : List Loc} (h : Evolves s R s' R')
    (hR : ∀ c ∈ R, ¬ Vacant s c.1 ∧ stamp s c.1 ≠ none) : Evolves s R s' R :=
  (h.frame_right hR).congr (by simp) (by simp +contextual)

omit [AlloyTrie] in
/-- What is written below a copy that is dropped is on pages that were vacant. -/
private theorem clears_abandoned {id : Nat} (h : Holds s t)
    (hold : ∀ c ∈ t.tags, old s c.1 = true) (hstep : Step s t s' t' m)
    (ht' : t'.tag? = some (id, 0)) (hc : Clears s t.tags s' t'.tags) :
    Clears s t.tags s' t.tags where
  roots _ hq := .inl hq
  cells c hn hcm := by
    by_cases hv : Vacant s c.1
    · exact .inr ⟨fun hm ↦ (h.live _ hm).1 hv, .inr hv⟩
    · refine .inl ⟨hv, ?_, hcm⟩
      -- a page of the trie is old, hence not written
      have hkept (hm : (c.1, 0) ∈ t.tags) : cellAt s c ≠ none := by
        rwa [cellAt, hstep.evolves.kept c.1 hv (hold (c.1, 0) hm)] at hn
      by_cases hmem : c ∈ t'.tags
      · rcases hc.roots c.1 (hstep.holds.stored.root_mem_of_first ht' hmem) with hm | hm
        · exact hkept hm
        · exact absurd hm hv
      · rcases hc.cells c hn hmem with hA | ⟨-, hm | hm⟩
        · exact hA.2.1
        · exact hkept hm
        · exact absurd hm hv

/-- `set_values_in_page` applies the changes to the trie of the page. -/
theorem setValuesInPage_spec (hv : Visits visit) {changes : Changes} {offset q : Nat}
    (hs : Ready s) (h : Holds s t) (ht : t.tag? = some (q, 0)) (hcs : Sorted (rel offset changes)) :
    Ensures (setValuesInPage visit changes offset q) s (Done .child s t (rel offset changes))
      (OnSplit P) := by
  refine .bind (getMutClone_spec hs h ht fun id s₁ t₁ hc ↦ ?_)
  refine withPage_spec ((retryLoop_spec hv (P := fun n t ↦ P n (release t id)) offset 20 hc.placed
    hcs).mono ?_ fun _ _ h ↦ h)
  rintro change s₂ ⟨t₂, o, m, he, hstep, hr⟩
  obtain ⟨hstep₂, hflag⟩ := hc.step hstep
  rw [hc.flag, ← hflag] at he
  by_cases hold : old s q = true ∧ change = .none
  · -- the copy is dropped, and the trie is where it was
    obtain ⟨hold, rfl⟩ := hold
    cases t with
    | empty => cases ht
    | node c ref pre kind ch =>
    cases ht
    have hall : ∀ d ∈ (node (q, 0) ref pre kind ch).tags, old s d.1 = true := by
      intro d hd
      rcases mem_tags_node.mp hd with rfl | ⟨k, hk⟩
      · exact hold
      · exact h.mono.1 hold k d hk
    rw [hr.1] at he
    have htag₂ := hr.2.1.trans hc.tag
    refine ⟨_, .none, .abandoned :: m, ?_, ⟨h.evolves_of_old hstep₂.evolves hall,
      hstep₂.evolves.keep h.live, hstep₂.cleaner, fun hm ↦ absurd List.mem_cons_self hm,
      fun hs ↦ clears_abandoned h hall hstep₂ htag₂ (hstep₂.clears hs)⟩, rfl, rfl, rfl⟩
    rw [h.flag_eq hstep₂.evolves]
    refine .childAbandon ?_ he
    simp [flag_node, tag?, hold]
  · refine ⟨t₂, o, m, .childPage ?_ he, hstep₂, ?_⟩
    · by_cases ho : o = .none
      · left
        have hch : change = .none := by
          cases change with
          | none => rfl
          | update pointer => exact absurd (ho.symm.trans hr.1) (by simp)
          | delete => exact absurd (ho.symm.trans hr.1) (by simp)
        have hq : old s q = false := Bool.eq_false_iff.mpr fun hq ↦ hold ⟨hq, hch⟩
        cases t with
        | empty => cases ht
        | node c ref pre kind ch =>
          cases ht
          simp [flag_node, tag?, hq]
      · exact .inr ho
    · cases change with
      | none =>
        have hq : old s q = false := Bool.eq_false_iff.mpr fun hq ↦ hold ⟨hq, rfl⟩
        have hid : id = q := hc.inPlace q ht hq
        exact ⟨hr.1, by rw [hr.2.1, hc.tag, ht, hid], hr.2.2.trans hc.ref⟩
      | update pointer =>
        refine ⟨hr.1, hr.2.1, .inr ?_⟩
        rcases hr.2.2 with hr | hr
        · exact ⟨id, hr.trans hc.tag⟩
        · exact hr
      | delete => exact hr

end

/-! ### Children -/

section
variable {visit : Changes → Nat → Nat → Nat → EngineM Cells PointerChange} {ref : RlpNode}
  {pre : Nibbles} {kind : Kind} {ch : Fin 16 → Trie Loc} {k : Fin 16}

/-- The visit of a child applies the changes to its trie, on its own page or on this one. -/
theorem visitChild_spec (hv : Visits visit) {changes : Changes} {offset : Nat} {pointer : Pointer}
    (h : Placed s (node (p, i) ref pre kind ch) p i) (hp : (ch k).pointer? = some pointer)
    (hcs : Sorted (rel offset changes)) :
    Ensures (visitChild visit changes offset p pointer.location) s
      (Done .child s (ch k) (rel offset changes))
      (OnSplit (Halted .child s (ch k) p (rel offset changes))) := by
  obtain ⟨-, ⟨l, -, hloc, htag⟩ | ⟨q, hloc, htag⟩⟩ := pointer?_cases (h.holds.linked k) hp
  · rw [hloc]
    refine (hv s (ch k) changes offset p l (h.child htag) hcs).mono ?_ ?_
    · rintro change s' ⟨t', o, m, he, hstep⟩
      exact ⟨t', o, m, .childLocal he, hstep⟩
    · intro e s' hh n hn
      obtain ⟨s₁, t₁, m, fuel, he, hstep⟩ := hh n hn
      exact ⟨s₁, t₁, m, fuel, .childLocal he, hstep⟩
  · rw [hloc]
    exact setValuesInPage_spec hv h.ready (h.holds.child k) htag hcs

private theorem updateNodeChild_spec (h : Placed s (node (p, i) ref pre kind ch) p i)
    (hstep : Step s (ch k) s₁ t m) (hlink : t.Linked p) (hk : kind.allows k) (ref' : RlpNode) :
    Ensures (updateNodeChild (kind.node pre fun l ↦ (ch l).pointer?) p i t.pointer? k) s₁
      (fun n s' ↦ n = kind.node pre (fun l ↦ (Function.update ch k t l).pointer?) ∧
        Step s (node (p, i) ref pre kind ch) s'
          (node (p, i) ref' pre kind (Function.update ch k t)) m ∧
        ∀ u : Trie Loc, flag s' u = flag s₁ u) (OnSplit P) := by
  refine .bind (liftNode_spec fun n hn ↦ .bind (setValue_spec fun c hc ↦ ?_))
  rw [Kind.putChild_node hk hn, ← pointers_update] at hc ⊢
  exact .pure ⟨rfl, h.step_write hstep hlink (h.allows_update fun _ ↦ hk) hc,
    fun u ↦ flag_setCells c u⟩

/-- The parent of a child that was visited. -/
theorem applyPointerChange_spec {o : Out} {change : PointerChange}
    (h : Placed s (node (p, i) ref pre kind ch) p i) (hstep : Step s (ch k) s₁ t m)
    (hr : Reports (ch k) o t change) (hk : kind.allows k) (ref' : RlpNode) :
    Ensures (applyPointerChange (kind.node pre fun l ↦ (ch l).pointer?) p i k change) s₁
      (fun n s' ↦ n = kind.node pre (fun l ↦ (Function.update ch k t l).pointer?) ∧
        Step s (node (p, i) ref pre kind ch) s'
          (node (p, i) ref' pre kind (Function.update ch k t)) m ∧
        ∀ u : Trie Loc, flag s' u = flag s₁ u) (OnSplit P) := by
  have hlink := hr.linked (h.holds.linked k)
  cases change with
  | none =>
    have hp : t.pointer? = (ch k).pointer? := pointer?_congr hr.2.1 hr.2.2
    refine .pure ⟨?_, ?_, fun _ ↦ rfl⟩
    · rw [pointers_update, hp, Function.update_eq_self]
    · exact (h.step_child hstep hp hlink).withRef ref'
  | update pointer =>
    rw [applyPointerChange, ← hr.2.1]
    exact updateNodeChild_spec h hstep hlink hk ref'
  | delete =>
    have hp : t.pointer? = none := by rw [hr.2]; rfl
    rw [applyPointerChange, ← hp]
    exact updateNodeChild_spec h hstep hlink hk ref'

/-- A split for lack of room. -/
theorem splitAndRestart_spec {α : Type} {Q : α → State Cells → Prop} (fuel p : Nat)
    (h : ∀ s', splitPage fuel p s = .ok () s' → P 0 s') :
    Ensures (splitAndRestart fuel p) s Q (OnSplit P) := by
  refine .bind (.intro (fun _ s' hs' ↦ ?_) fun e s' hs' n hn ↦ ?_)
  · intro n hn
    cases hn
    exact h s' hs'
  · exact ((noSplit_splitPage fuel p s).error hs' n hn).elim

omit [AlloyTrie] in
/-- A new leaf has the value and no children. -/
theorem newLeaf_eq_ok {path : Nibbles} {v : TrieValue} {n : Node}
    (h : Node.newLeaf path v = .ok n) : n = (Kind.leaf v.entry).node path fun _ ↦ none := by
  simp only [Node.newLeaf] at h
  split at h
  · cases h
  · cases v <;> · cases h; rfl

/-- A new leaf below a node. -/
theorem insertChild_spec {β : Type} {Q : β → State Cells → Prop} {path : Nibbles} {e : Entry}
    {n : Node} {f : Nat → Node → EngineM Cells β} (h : Placed s (node (p, i) ref pre kind ch) p i)
    (hch : ch k = empty) (hk : kind.allows k) (hn : n = (Kind.leaf e).node path fun _ ↦ none)
    (hf : ∀ c s', c ≠ 0 →
      Step s (node (p, i) ref pre kind ch) s'
        (node (p, i) ref pre kind (Function.update ch k (leaf (p, c) path e))) [] →
      flag s' (leaf (p, c) path e) = leaf false path e →
      Ensures (f c (kind.node pre fun l ↦ (Function.update ch k (leaf (p, c) path e) l).pointer?))
        s' Q (OnSplit P)) :
    Ensures (do
      let c ← insertValue p n
      let node ← liftNode ((kind.node pre fun l ↦ (ch l).pointer?).setChild k
        ⟨.cell c, n.toRlpNode⟩)
      setValue p i node
      f c node) s Q (OnSplit P) := by
  refine .bind (insertValue_spec fun c c₁ _ hfree hc₁ ↦ .bind (liftNode_spec fun n' hn' ↦
    .bind (setValue_spec fun c₂ hc₂ ↦ ?_)))
  subst hn
  obtain ⟨hc0, hstep⟩ := step_insert h hfree hc₁
  have hp : (some ⟨.cell c, ((Kind.leaf e).node path fun _ ↦ none).toRlpNode⟩ : Option Pointer) =
      (leaf (p, c) path e : Trie Loc).pointer? := by
    rw [Kind.toRlpNode_node]
    simp only [leaf, fresh, pointer?, nodeLocation, if_neg hc0]
    rfl
  have hn' := Kind.putChild_node hk hn'
  rw [hp, ← pointers_update] at hn'
  subst hn'
  refine hf c _ hc0 (h.step_write (hch ▸ hstep) (linked_of_tag rfl (.inl rfl))
    (h.allows_update fun _ ↦ hk) hc₂) ?_
  rw [flag_setCells, flag_setCells, leaf, flag_fresh]
  simp only [decide_eq_false hc0, Bool.false_and]
  rfl

end

/-! ### Places of a branch -/

section
variable {visit : Changes → Nat → Nat → Nat → EngineM Cells PointerChange} {ref : RlpNode}
  {pre : Nibbles} {ch : Fin 16 → Trie Loc} {k : Fin 16}

/-- What applying changes to one place of a branch does. -/
private theorem handleChildNodeTraversal_spec (hv : Visits visit) (fuel offset : Nat)
    {changes : Changes} (h : Placed s (node (p, i) ref pre .branch ch) p i) (hne : changes ≠ [])
    (hcs : Sorted (rel (offset + pre.length + 1) changes)) :
    Ensures (handleChildNodeTraversal fuel visit changes offset p i
        (Kind.branch.node pre fun l ↦ (ch l).pointer?) pre k) s
      (fun n s' ↦ ∃ t o m,
        Exec .slot (flag s (ch k)) (rel (offset + pre.length + 1) changes) o (flag s' t) m ∧
        o.ended ∧ n = Kind.branch.node pre (fun l ↦ (Function.update ch k t l).pointer?) ∧
        Step s (node (p, i) ref pre .branch ch) s'
          (node (p, i) ref pre .branch (Function.update ch k t)) m)
      (OnSplit fun n s' ↦ ∃ s₁ t m fuel,
        Exec .slot (flag s (ch k)) (rel (offset + pre.length + 1) changes) (.stop n) (flag s₁ t) m ∧
        Step s (node (p, i) ref pre .branch ch) s₁
          (node (p, i) ref pre .branch (Function.update ch k t)) m ∧
        splitPage fuel p s₁ = .ok () s') := by
  refine .bind (liftNode_spec fun ptr hptr ↦ ?_)
  have hptr : ptr = (ch k).pointer? := by
    cases hptr
    rfl
  subst hptr
  cases hp : (ch k).pointer? with
  | some pointer =>
    have hk : ch k ≠ empty := fun he ↦ by simp [he, pointer?] at hp
    have hk' : flag s (ch k) ≠ empty := fun he ↦ hk (map_eq_empty.mp he)
    have hne' : rel (offset + pre.length + 1) changes ≠ [] := fun he ↦ hne (rel_eq_nil.mp he)
    refine .seq ((visitChild_spec hv h hp hcs).mono (fun _ _ h ↦ h) ?_) ?_
    · intro e s' hh n hn
      obtain ⟨s₁, t₁, m, fuel', he, hstep, htag, href, hsplit⟩ := hh n hn
      exact ⟨s₁, t₁, m, fuel', .slotChild hk' hne' he, h.step_child hstep
        (pointer?_congr htag href) (linked_congr (h.holds.linked k) htag), hsplit⟩
    · rintro change s₁ ⟨t, o, m, he, hstep, hr⟩
      refine (applyPointerChange_spec h hstep hr rfl ref).mono ?_ fun _ _ h ↦ h
      rintro n s' ⟨rfl, hstep', hflag⟩
      refine ⟨t, o, m, .slotChild hk' hne' ?_, hr.ended, rfl, hstep'⟩
      rw [hflag]
      exact he
  | none =>
    have hk : ch k = empty := pointer?_eq_none.mp hp
    have hsplit := List.takeWhile_append_dropWhile (p := fun c : Change ↦ c.2.isNone) (l := changes)
    have htake : ∀ c ∈ rel (offset + pre.length + 1) (changes.takeWhile fun c ↦ c.2.isNone),
        c.2 = none := by
      intro c hc
      obtain ⟨d, hd, rfl⟩ := List.mem_map.mp hc
      simpa using List.mem_takeWhile_imp hd
    cases hd : changes.dropWhile fun c ↦ c.2.isNone with
    | nil =>
      rw [hd, List.append_nil] at hsplit
      rw [hsplit] at htake
      refine .pure ⟨empty, .none, [], ?_, rfl, ?_, ?_⟩
      · rw [hk]
        exact .slotSkip htake
      · rw [← hk, Function.update_eq_self]
      · rw [← hk, Function.update_eq_self]
        exact h.of_refl
    | cons c rest =>
    obtain ⟨path, v⟩ := c
    have hv' : v ≠ none := by
      have := List.head?_dropWhile_not (fun c : Change ↦ c.2.isNone) changes
      rw [hd] at this
      exact Option.isSome_iff_ne_none.mp (by simpa using this)
    obtain ⟨v, rfl⟩ := Option.ne_none_iff_exists'.mp hv'
    rw [hd] at hsplit
    have hrel : rel (offset + pre.length + 1) changes =
        rel (offset + pre.length + 1) (changes.takeWhile fun c ↦ c.2.isNone) ++
          (path.drop (offset + pre.length + 1), some v) :: rel (offset + pre.length + 1) rest := by
      conv_lhs => rw [← hsplit]
      simp [rel]
    have hempty : flag s (ch k) = empty := by rw [hk]; rfl
    rw [hrel, hempty]
    refine .bind (liftNode_spec fun new hnew ↦ .bind (numFreeBytes_spec fun free ↦ ?_))
    split
    · refine splitAndRestart_spec fuel p fun s' hs' ↦ ⟨s, empty, [], fuel, .slotStop htake, ?_, hs'⟩
      rw [← hk, Function.update_eq_self]
      exact h.of_refl
    · refine insertChild_spec h hk rfl (newLeaf_eq_ok hnew) fun c s₁ hc0 hstep hflag ↦ ?_
      have h₁ := h.step hstep rfl
      split
      · next hrest =>
        rw [List.isEmpty_iff] at hrest
        rw [hrest]
        refine .pure ⟨_, .update, [], ?_, rfl, rfl, hstep⟩
        rw [hflag]
        exact .slotLeaf htake
      · next hrest =>
        have hrest : rel (offset + pre.length + 1) rest ≠ [] := by simpa using hrest
        have hchild : Function.update ch k (leaf (p, c) (path.drop (offset + pre.length + 1))
            v.entry) k = leaf (p, c) (path.drop (offset + pre.length + 1)) v.entry :=
          Function.update_self _ _ _
        have hplaced : Placed s₁ (leaf (p, c) (path.drop (offset + pre.length + 1)) v.entry) p c :=
          hchild ▸ h₁.child (k := k) (by rw [hchild]; rfl)
        have hsorted : Sorted (rel (offset + pre.length + 1) rest) := by
          rw [hrel] at hcs
          exact hcs.sublist ((List.sublist_cons_self _ _).trans (List.sublist_append_right _ _))
        refine .seq ((hv s₁ _ rest (offset + pre.length + 1) p c hplaced hsorted).mono
          (fun _ _ h ↦ h) ?_) ?_
        · intro e s' hh n hn
          obtain ⟨s₂, t₂, m, fuel', he, hstep₂, htag, href, hsp⟩ := hh n hn
          rw [hflag] at he
          refine ⟨s₂, t₂, m, fuel', .slotMore htake hrest he, ?_, hsp⟩
          rw [← hchild] at hstep₂ htag href
          have := hstep.trans (h₁.step_child hstep₂ (pointer?_congr htag href)
            (linked_congr (h₁.holds.linked k) htag))
          simpa using this
        · rintro change s₂ ⟨t₂, o, m, he, hstep₂, hr⟩
          rw [hflag] at he
          rw [← hchild] at hstep₂ hr
          refine (applyPointerChange_spec h₁ hstep₂ hr rfl ref).mono ?_ fun _ _ h ↦ h
          rintro n s' ⟨rfl, hstep', hflag'⟩
          refine ⟨t₂, o, m, .slotMore htake hrest ?_, hr.ended, ?_, ?_⟩
          · rw [hflag']
            exact he
          · rw [Function.update_idem]
          · simpa using hstep.trans hstep'

omit [AlloyTrie] in
private theorem addHandled_spec {α : Type} {x : EngineM Cells α} {Q : α → State Cells → Prop}
    {handled : Nat} (h : Ensures x s Q (OnSplit fun n s' ↦ P (handled + n) s')) :
    Ensures (addHandled handled x) s Q (OnSplit P) := by
  simp only [Ensures, addHandled] at h ⊢
  cases hx : x s with
  | ok a s' => simpa [hx] using h
  | error e s' =>
    simp only [hx] at h
    cases e with
    | pageSplit n =>
      intro n' hn'
      cases hn'
      exact h n rfl
    | _ => simp [OnSplit]

omit [AlloyTrie] in
/-- The changes for the next child are those at the front. -/
private theorem takeWhile_next {offset : Nat} {remaining : Changes} {g : Fin 16 → Changes}
    {l : List (Fin 16)} (hk : k ∉ l)
    (hrem : rel offset remaining = (k :: l).flatMap fun j ↦ under (pre ++ [j]) (g j)) :
    rel offset (remaining.takeWhile fun c ↦ c.1[offset + pre.length]? == some k) =
        under (pre ++ [k]) (g k) ∧
      rel offset (remaining.dropWhile fun c ↦ c.1[offset + pre.length]? == some k) =
        l.flatMap fun j ↦ under (pre ++ [j]) (g j) := by
  have hnext : (fun c : Change ↦ c.1[offset + pre.length]? == some k) =
      (fun c : Change ↦ c.1[pre.length]? == some k) ∘ fun c ↦ (c.1.drop offset, c.2) := by
    funext c
    simp [List.getElem?_drop]
  have hpos : ∀ c ∈ under (pre ++ [k]) (g k), (c.1[pre.length]? == some k) = true := by
    intro c hc
    obtain ⟨d, -, rfl⟩ := mem_under.mp hc
    simp
  have hneg : ∀ c ∈ l.flatMap fun j ↦ under (pre ++ [j]) (g j),
      ¬ (c.1[pre.length]? == some k) = true := by
    intro c hc
    obtain ⟨j, hj, hc⟩ := List.mem_flatMap.mp hc
    obtain ⟨d, -, rfl⟩ := mem_under.mp hc
    have hne : j ≠ k := fun he ↦ hk (he ▸ hj)
    simpa using hne
  have htake : (l.flatMap fun j ↦ under (pre ++ [j]) (g j)).takeWhile
      (fun c ↦ c.1[pre.length]? == some k) = [] := by
    cases hl : l.flatMap fun j ↦ under (pre ++ [j]) (g j) with
    | nil => rfl
    | cons c cs => exact List.takeWhile_cons_of_neg (hneg c (hl ▸ List.mem_cons_self))
  have hdrop : (l.flatMap fun j ↦ under (pre ++ [j]) (g j)).dropWhile
      (fun c ↦ c.1[pre.length]? == some k) = l.flatMap fun j ↦ under (pre ++ [j]) (g j) := by
    cases hl : l.flatMap fun j ↦ under (pre ++ [j]) (g j) with
    | nil => rfl
    | cons c cs => exact List.dropWhile_cons_of_neg (hneg c (hl ▸ List.mem_cons_self))
  rw [hnext]
  constructor
  · rw [rel, ← List.takeWhile_map]
    show List.takeWhile _ (rel offset remaining) = _
    rw [hrem, List.flatMap_cons, List.takeWhile_append_of_pos hpos, htake, List.append_nil]
  · rw [rel, ← List.dropWhile_map]
    show List.dropWhile _ (rel offset remaining) = _
    rw [hrem, List.flatMap_cons, List.dropWhile_append_of_pos hpos, hdrop]

omit [AlloyTrie] in
private theorem rel_matching {offset : Nat} {matching g : Changes}
    (h : rel offset matching = under (pre ++ [k]) g) :
    rel (offset + pre.length + 1) matching = g := by
  have hlen : pre.length + 1 = (pre ++ [k]).length := by simp
  rw [Nat.add_assoc, rel_add, h, hlen, rel_under]

/-- The places of a list were visited. -/
structure Slots (s : State Cells) (ch : Fin 16 → Trie Loc) (g : Fin 16 → Changes)
    (l : List (Fin 16)) (s' : State Cells) (ch' : Fin 16 → Trie Loc) (o : Fin 16 → Out)
    (m : Fin 16 → List Mishap) : Prop where
  exec : ∀ k ∈ l, Exec .slot (flag s (ch k)) (g k) (o k) (flag s' (ch' k)) (m k)
  others : ∀ k ∉ l, ch' k = ch k ∧ m k = []

/-- One more place at the front. -/
private theorem Slots.cons {g : Fin 16 → Changes} {l : List (Fin 16)} {ch' : Fin 16 → Trie Loc}
    {o : Fin 16 → Out} {m : Fin 16 → List Mishap} {o₁ : Out} {m₁ : List Mishap}
    (h : Placed s (node (p, i) ref pre .branch ch) p i) (hk : k ∉ l)
    (he : Exec .slot (flag s (ch k)) (g k) o₁ (flag s₁ t) m₁)
    (hstep : Step s (node (p, i) ref pre .branch ch) s₁
      (node (p, i) ref pre .branch (Function.update ch k t)) m₁)
    (hrest : Slots s₁ (Function.update ch k t) g l s' ch' o m)
    (hstep' : Step s₁ (node (p, i) ref pre .branch (Function.update ch k t)) s'
      (node (p, i) ref pre .branch ch') (l.flatMap m)) :
    Slots s ch g (k :: l) s' ch' (Function.update o k o₁) (Function.update m k m₁) ∧
      Step s (node (p, i) ref pre .branch ch) s' (node (p, i) ref pre .branch ch')
        ((k :: l).flatMap (Function.update m k m₁)) := by
  have hne (j : Fin 16) (hj : j ∈ l) : j ≠ k := fun he ↦ hk (he ▸ hj)
  have hk' : ch' k = t := by rw [(hrest.others k hk).1, Function.update_self]
  refine ⟨⟨fun j hj ↦ ?_, fun j hj ↦ ?_⟩, ?_⟩
  · rcases List.mem_cons.mp hj with rfl | hj
    · rw [Function.update_self, Function.update_self, hk']
      have ht : Holds s₁ t := by
        have := hstep.holds.child j
        rwa [Function.update_self] at this
      rw [ht.flag_eq hstep'.evolves]
      exact he
    · have hex := hrest.exec j hj
      rw [Function.update_of_ne (hne j hj)] at hex
      rw [Function.update_of_ne (hne j hj), Function.update_of_ne (hne j hj),
        ← (h.holds.child j).flag_eq hstep.evolves]
      exact hex
  · rw [List.mem_cons, not_or] at hj
    obtain ⟨hc, hm⟩ := hrest.others j hj.2
    rw [hc, Function.update_of_ne hj.1, Function.update_of_ne hj.1, hm]
    exact ⟨rfl, rfl⟩
  · have hm : (k :: l).flatMap (Function.update m k m₁) = m₁ ++ l.flatMap m := by
      rw [List.flatMap_cons, Function.update_self, List.flatMap_def, List.flatMap_def]
      congr 2
      exact List.map_congr_left fun j hj ↦ Function.update_of_ne (hne j hj) _ _
    rw [hm]
    exact hstep.trans hstep'

/-- No place was visited. -/
private theorem Slots.nil {g : Fin 16 → Changes} :
    Slots s ch g [] s ch (fun _ ↦ .none) fun _ ↦ [] :=
  ⟨fun _ hk ↦ (List.not_mem_nil hk).elim, fun _ _ ↦ ⟨rfl, rfl⟩⟩

/-- All places of a list were visited. -/
private def SlotsDone (s : State Cells) (c : Loc) (ref : RlpNode) (pre : Nibbles)
    (ch : Fin 16 → Trie Loc) (g : Fin 16 → Changes) (l : List (Fin 16)) (n : Node)
    (s' : State Cells) : Prop :=
  ∃ (ch' : Fin 16 → Trie Loc) (o : Fin 16 → Out) (m : Fin 16 → List Mishap),
    Slots s ch g l s' ch' o m ∧ (∀ k ∈ l, (o k).ended) ∧
    n = Kind.branch.node pre (fun k ↦ (ch' k).pointer?) ∧
    Step s (node c ref pre .branch ch) s' (node c ref pre .branch ch') (l.flatMap m)

/-- The places of a list were visited up to one at which the page is split. -/
private def SlotsHalted (s : State Cells) (c : Loc) (ref : RlpNode) (pre : Nibbles)
    (ch : Fin 16 → Trie Loc) (g : Fin 16 → Changes) (l : List (Fin 16)) (handled n : Nat)
    (s' : State Cells) : Prop :=
  ∃ (s₁ : State Cells) (ch' : Fin 16 → Trie Loc) (o : Fin 16 → Out) (m : Fin 16 → List Mishap)
    (fuel : Nat) (l₁ l₂ : List (Fin 16)) (k₀ : Fin 16) (n₀ : Nat), l = l₁ ++ k₀ :: l₂ ∧
    Slots s ch g (l₁ ++ [k₀]) s₁ ch' o m ∧ (∀ k ∈ l₁, (o k).ended) ∧ o k₀ = .stop n₀ ∧
    n = handled + (l₁.map fun k ↦ (g k).length).sum + n₀ ∧
    Step s (node c ref pre .branch ch) s₁ (node c ref pre .branch ch') ((l₁ ++ [k₀]).flatMap m) ∧
    splitPage fuel c.1 s₁ = .ok () s'

/-- Applying changes to the places of a branch, one after the other. -/
private theorem traverseChildren_spec (hv : Visits visit) (fuel : Nat) {g : Fin 16 → Changes}
    (hg : ∀ k, Sorted (g k)) (l : List (Fin 16)) (hl : l.Nodup) {remaining : Changes}
    {offset : Nat} (handled : Nat)
    (hrem : rel offset remaining = l.flatMap fun k ↦ under (pre ++ [k]) (g k))
    (h : Placed s (node (p, i) ref pre .branch ch) p i) :
    Ensures (traverseChildren fuel visit offset p i pre l remaining handled
        (Kind.branch.node pre fun l ↦ (ch l).pointer?)) s
      (fun r s' ↦ SlotsDone s (p, i) ref pre ch g l r.2 s')
      (OnSplit (SlotsHalted s (p, i) ref pre ch g l handled)) := by
  induction l generalizing s ch remaining handled with
  | nil => exact .pure ⟨ch, _, _, .nil, by simp, rfl, h.of_refl⟩
  | cons j l ih =>
    obtain ⟨hj, hl⟩ := List.nodup_cons.mp hl
    obtain ⟨htake, hdrop⟩ := takeWhile_next hj hrem
    unfold traverseChildren
    simp only
    generalize remaining.takeWhile (fun c ↦ c.1[offset + pre.length]? == some j) =
      matching at htake ⊢
    generalize remaining.dropWhile (fun c ↦ c.1[offset + pre.length]? == some j) = rest at hdrop ⊢
    have hmatch := rel_matching htake
    -- the places after the first
    have hrest (s₁ : State Cells) (t : Trie Loc) (o : Out) (m : List Mishap)
        (he : Exec .slot (flag s (ch j)) (g j) o (flag s₁ t) m) (ho : o.ended)
        (hstep : Step s (node (p, i) ref pre .branch ch) s₁
          (node (p, i) ref pre .branch (Function.update ch j t)) m) :
        Ensures (traverseChildren fuel visit offset p i pre l rest (handled + (g j).length)
          (Kind.branch.node pre fun l ↦ (Function.update ch j t l).pointer?)) s₁
          (fun r s' ↦ SlotsDone s (p, i) ref pre ch g (j :: l) r.2 s')
          (OnSplit (SlotsHalted s (p, i) ref pre ch g (j :: l) handled)) := by
      have hended (o' : Fin 16 → Out) (l' : List (Fin 16)) (hl' : ∀ k ∈ l', (o' k).ended) :
          ∀ k ∈ j :: l', (Function.update o' j o k).ended := by
        intro k hk
        by_cases hkj : k = j
        · rw [hkj, Function.update_self]
          exact ho
        · rw [Function.update_of_ne hkj]
          exact hl' k ((List.mem_cons.mp hk).resolve_left hkj)
      refine (ih hl (handled + (g j).length) hdrop (h.step hstep rfl)).mono ?_ ?_
      · rintro r s' ⟨ch', o', m', hslots, ho', hr, hstep'⟩
        obtain ⟨hslots, hstep⟩ := hslots.cons h hj he hstep hstep'
        exact ⟨ch', _, _, hslots, hended o' l ho', hr, hstep⟩
      · intro e s' hh n hn
        obtain ⟨s₂, ch', o', m', fuel', l₁, l₂, k₀, n₀, rfl, hslots, ho', hstop, hn, hstep',
          hsplit⟩ :=
          hh n hn
        have hj' : j ∉ l₁ ++ [k₀] :=
          fun hm ↦ hj (by rw [List.append_cons]; exact List.mem_append_left _ hm)
        have hjk : k₀ ≠ j := fun he ↦ hj (by simp [he])
        obtain ⟨hslots, hstep⟩ := hslots.cons h hj' he hstep hstep'
        refine ⟨s₂, ch', _, _, fuel', j :: l₁, l₂, k₀, n₀, rfl, hslots, hended o' l₁ ho', ?_, ?_,
          hstep, hsplit⟩
        · rw [Function.update_of_ne hjk, hstop]
        · rw [hn, List.map_cons, List.sum_cons]
          omega
    split
    · next hempty =>
      have hgj : g j = [] := by
        rw [← hmatch, List.isEmpty_iff.mp hempty]
        rfl
      have := hrest s (ch j) .none [] (by rw [hgj]; exact .slotNil) rfl
        (by rw [Function.update_eq_self]; exact h.of_refl)
      rw [Function.update_eq_self, hgj] at this
      exact this
    · next hempty =>
      have hlen : matching.length = (g j).length := by rw [← hmatch, length_rel]
      have hne : matching ≠ [] := by simpa using hempty
      rw [hlen]
      refine .seq (addHandled_spec ((handleChildNodeTraversal_spec hv fuel offset h hne
        (by rw [hmatch]; exact hg j)).mono (fun _ _ h ↦ h) ?_)) ?_
      · intro e s' hh n hn
        obtain ⟨s₁, t, m, fuel', he, hstep, hsplit⟩ := hh n hn
        rw [hmatch] at he
        obtain ⟨hslots, hstep⟩ := Slots.nil.cons h List.not_mem_nil he hstep
          (.refl hstep.evolves.ready hstep.holds)
        refine ⟨s₁, _, _, _, fuel', [], l, j, n, rfl, hslots, by simp, Function.update_self _ _ _,
          rfl, hstep, hsplit⟩
      · rintro n s₁ ⟨t, o, m, he, ho, rfl, hstep⟩
        rw [hmatch] at he
        exact hrest s₁ t o m he ho hstep

end

/-! ### Cleaning up a branch -/

section
variable {ref : RlpNode} {pre : Nibbles} {kind : Kind} {ch : Fin 16 → Trie Loc} {k : Fin 16}

omit [AlloyTrie] in
private theorem orphanIfRoot_spec {Q : Unit → State Cells → Prop} (hs : Ready s)
    (h : ∀ s', Orphaned s (fun q ↦ if (p, i) = (q, 0) then 1 else 0) s' → Q () s') :
    Ensures (orphanIfRoot p i) s Q (OnSplit P) := by
  unfold orphanIfRoot
  split
  · next hi =>
    refine orphanPage_spec hs fun s' hs' ↦ h s' (hs'.congr fun q ↦ ?_)
    simp [hi, eq_comm]
  · next hi => exact .pure (h s ((Orphaned.refl hs).congr fun q ↦ by simp [hi]))

omit [AlloyTrie] in
/-- The cells of a node with a single child. -/
theorem count_tags_only {c : Loc} (hch : ∀ j, j ≠ k → ch j = empty) (x : Loc) :
    (node c ref pre kind ch).tags.count x = (if c = x then 1 else 0) + (ch k).tags.count x := by
  have heq : ch = Function.update (fun _ ↦ empty) k (ch k) := by
    funext j
    by_cases hj : j = k
    · rw [hj, Function.update_self]
    · rw [Function.update_of_ne hj, hch j hj]
  have hcount : (node c ref pre kind (Function.update (fun _ ↦ empty) k (ch k))).tags.count x +
      (empty : Trie Loc).tags.count x =
        (node c ref pre kind fun _ ↦ empty).tags.count x + (ch k).tags.count x :=
    count_tags_update x (fun _ ↦ empty) k (ch k)
  have hroot : (node c ref pre kind fun _ ↦ (empty : Trie Loc)).tags.count x =
      if c = x then 1 else 0 := by
    rw [count_tags_node]
    simp
  rw [← heq, hroot] at hcount
  simpa using hcount

omit [AlloyTrie] in
/-- Only the prefix is replaced. -/
theorem setPrefix_node {path : Nibbles} {pointers : Fin 16 → Option Pointer} {n : Node}
    (h : (kind.node pre pointers).setPrefix path = .ok n) : n = kind.node path pointers := by
  simp only [Node.setPrefix] at h
  split at h
  · cases h
  · cases h
    rcases kind with (_ | _) | _ <;> rfl

/-- The encoding of a node is its own reference. -/
theorem toRlpNode_eq (ch : Fin 16 → Trie Loc) :
    (kind.node pre fun l ↦ (ch l).pointer?).toRlpNode = kind.rlp pre fun l ↦ (ch l).ref? := by
  rw [Kind.toRlpNode_node]
  simp only [pointer?_map_rlp]

/-- What cleaning up a branch does. -/
private def Cleaned (s : State Cells) (c : Loc) (ref : RlpNode) (pre : Nibbles)
    (ch : Fin 16 → Trie Loc) (change : PointerChange) (s' : State Cells) : Prop :=
  ∃ t', Step s (node c ref pre .branch ch) s' t' [] ∧
    flag s' t' = (cleanup false pre fun k ↦ flag s (ch k)).2 ∧
    Reports (node c ref pre .branch ch) (cleanup false pre fun k ↦ flag s (ch k)).1 t' change

omit [AlloyTrie] in
private theorem cleanEmpty_spec {Q : PointerChange → State Cells → Prop}
    (h : Placed s (node (p, i) ref pre .branch ch) p i) (hch : ∀ k, ch k = empty)
    (hQ : ∀ s', Step s (node (p, i) ref pre .branch ch) s' empty [] → Q .delete s') :
    Ensures (do
      deleteValue p i
      orphanIfRoot p i
      pure .delete) s Q (OnSplit P) := by
  refine .bind (deleteValue_spec fun c hc ↦ ?_)
  have h₁ := erased_deleteValue (fun c ↦ (c.1, 0) ∈ (node (p, i) ref pre .branch ch).tags) h.ready
    h.current hc
  refine .bind (orphanIfRoot_spec h₁.evolves.ready fun s' hs' ↦ .pure (hQ s' ?_))
  have htags : (node (p, i) ref pre .branch ch).tags = [(p, i)] := by simp [tags, hch]
  have h₂ := h₁.trans (S := []) (.of_orphaned hs' (by simp)) (by simp)
  rw [List.append_nil, ← htags] at h₂
  refine ⟨.empty, h₂.evolves, h₂.cleaner, fun _ ↦ h₂.balance fun q ↦ ?_, fun _ ↦ h₂.clears⟩
  rw [count_tags_node]
  simp [hch]

private theorem mergeWithChildOnSamePage_spec {Q : PointerChange → State Cells → Prop} {l : Nat}
    {ref' : RlpNode} {pre' path : Nibbles} {kind' : Kind} {ch' : Fin 16 → Trie Loc}
    (h : Placed s (node (p, i) ref pre .branch ch) p i) (hch : ∀ j, j ≠ k → ch j = empty)
    (hk : ch k = node (p, l) ref' pre' kind' ch') (hl : l ≠ 0)
    (hQ : ∀ s', Step s (node (p, i) ref pre .branch ch) s'
        (fresh (p, i) (path ++ pre') kind' ch') [] →
      flag s' (fresh (p, i) (path ++ pre') kind' ch') = lift false path (flag s (ch k)) →
      Q (.update ⟨nodeLocation p i, kind'.rlp (path ++ pre') fun l ↦ (ch' l).ref?⟩) s') :
    Ensures (mergeWithChildOnSamePage p i l path) s Q (OnSplit P) := by
  have hhk : Holds s (node (p, l) ref' pre' kind' ch') := hk ▸ h.holds.child k
  refine .bind (getValue_spec fun n hn ↦ .bind (liftNode_spec fun n' hn' ↦
    .bind (deleteValue_spec fun c₁ hc₁ ↦ .bind (setValue_spec fun c₂ hc₂ ↦ .pure ?_))))
  rw [hhk.eq_of_cellAt hn] at hn'
  rw [Kind.pre_node] at hn'
  have hn' := setPrefix_node hn'
  subst hn'
  rw [setCells_setCells, toRlpNode_eq]
  have hil : l ≠ i := by
    rintro rfl
    exact h.holds.root_not_mem k (hk ▸ mem_tags_node.mpr (.inl rfl))
  have hcell (j : Nat) : c₂.cell j = if j = i then
      some (kind'.node (path ++ pre') fun l ↦ (ch' l).pointer?) else
        if j = l then none else cellAt s (p, j) := by
    rw [hc₂]
    simp [hc₁]
  have hroot : (p, l) ∈ (node (p, i) ref pre .branch ch).tags :=
    mem_tags_node.mpr (.inr ⟨k, hk ▸ mem_tags_node.mpr (.inl rfl)⟩)
  have hbelow (j : Fin 16) (d : Loc) (hd : d ∈ (ch' j).tags) : d ∈ (ch k).tags :=
    hk ▸ mem_tags_node.mpr (.inr ⟨j, hd⟩)
  have he : Evolves s [(p, i), (p, l)] (s.setCells p c₂) [] := by
    refine evolves_setCells h.ready h.current (by simp) (by simp) fun j hj _ ↦ ?_
    simp only [List.mem_cons, Prod.mk.injEq, true_and, List.not_mem_nil, or_false, not_or] at hj
    rw [hcell, if_neg hj.1, if_neg hj.2]
  have hsub (d : Loc) (hd : d ∈ (fresh (p, i) (path ++ pre') kind' ch').tags) :
      d ∈ (node (p, i) ref pre .branch ch).tags := by
    rcases mem_tags_node.mp hd with rfl | ⟨j, hj⟩
    · exact mem_tags_node.mpr (.inl rfl)
    · exact mem_tags_node.mpr (.inr ⟨k, hbelow j d hj⟩)
  have hev : Evolves s (node (p, i) ref pre .branch ch).tags (s.setCells p c₂)
      (fresh (p, i) (path ++ pre') kind' ch').tags := by
    refine evolves_setCells h.ready h.current (fun d hd ↦ h.holds.live d (hsub d hd))
      (fun d hd ↦ .inl (hsub d hd)) fun j hj _ ↦ ?_
    rw [hcell, if_neg, if_neg]
    · rintro rfl
      exact hj hroot
    · rintro rfl
      exact hj (mem_tags_node.mpr (.inl rfl))
  have hlive : ¬ Vacant (s.setCells p c₂) p ∧ stamp (s.setCells p c₂) p ≠ none := by
    simpa using h.live
  have hold : old (s.setCells p c₂) p = false := by simpa using h.current
  refine hQ _ ⟨.node (by simp [hcell]) hlive hold hhk.allows hhk.linked (fun j hm ↦ ?_)
    (fun _ _ ↦ hhk.disjoint) fun j ↦ (hhk.child j).evolves he ?_, hev, cleaner_setCells c₂,
    fun _ ↦ balance_setCells fun q ↦ ?_, fun _ ↦ ?_⟩ ?_
  · exact h.holds.root_not_mem k (hbelow j _ hm)
  · intro d hd hd'
    simp only [List.mem_cons, List.not_mem_nil, or_false] at hd'
    rcases hd' with rfl | rfl
    · exact h.holds.root_not_mem k (hbelow j _ hd)
    · exact hhk.root_not_mem j hd
  · have h₁ : (fresh (p, i) (path ++ pre') kind' ch').tags.count (q, 0) =
        (if (p, i) = (q, 0) then 1 else 0) +
          ((List.finRange 16).map fun j ↦ (ch' j).tags.count (q, 0)).sum := count_tags_node _
    rw [h₁, count_tags_only hch, hk, count_tags_node]
    have : (p, l) ≠ (q, 0) := by simp [hl]
    rw [if_neg this]
    omega
  · have hsup (d : Loc) (hd : d ∈ (node (p, i) ref pre .branch ch).tags) (hdl : d ≠ (p, l)) :
        d ∈ (fresh (p, i) (path ++ pre') kind' ch').tags := by
      rcases mem_tags_node.mp hd with rfl | ⟨j, hj⟩
      · exact mem_tags_node.mpr (.inl rfl)
      · by_cases hjk : j = k
        · rw [hjk, hk] at hj
          rcases mem_tags_node.mp hj with rfl | hj
          · exact absurd rfl hdl
          · exact mem_tags_node.mpr (.inr hj)
        · rw [hch j hjk] at hj
          cases hj
    refine clears_setCells (fun d hd ↦ (h.holds.live d (hsub d hd)).1) (fun q hq ↦ hsub _ hq)
      (fun d hd hdp ↦ hsup d hd fun he ↦ hdp (by rw [he])) fun j hj hjm ↦ ?_
    rw [hcell] at hj
    split at hj
    · next hji => exact absurd (mem_tags_node.mpr (.inl (by rw [hji]))) hjm
    · split at hj
      · exact absurd rfl hj
      · next hjl =>
        exact ⟨hj, fun hm ↦ hjm (hsup _ hm fun he ↦ hjl (Prod.mk.inj he).2)⟩
  · rw [flag_setCells, flag_fresh, hk, h.current, Bool.and_false]
    rfl

private theorem lift_withTag {α : Type} (tag tag' : α) (path : Nibbles) (t : Trie α) :
    lift tag path (t.withTag tag') = lift tag path t := by
  cases t <;> rfl

private theorem ensureRoom_spec (fuel : Nat) {Q : Unit → State Cells → Prop} (h : Placed s t p 0)
    (hQ : ∀ s' t', t'.tag? = some (p, 0) → flag s' t' = flag s t → Step s t s' t' [] → Q () s') :
    Ensures (ensureRoom fuel p) s Q (OnSplit P) := by
  refine .bind (numFreeBytes_spec fun n ↦ ?_)
  split
  · refine (splitPage_spec fuel h.ready h.holds h.tag h.current).mono ?_ fun _ _ h ↦ h
    rintro _ s' ⟨t', htag, -, hflag, hstep⟩
    exact hQ s' t' htag hflag hstep
  · exact .pure (hQ s t h.tag rfl h.of_refl)

private theorem mergeOther_spec (fuel : Nat) {Q : PointerChange → State Cells → Prop} {q : Nat}
    {path : Nibbles} (h : Placed s (node (p, i) ref pre .branch ch) p i)
    (hch : ∀ j, j ≠ k → ch j = empty) (hk : (ch k).tag? = some (q, 0))
    (hQ : ∀ s' id ref' t', Step s (node (p, i) ref pre .branch ch) s' t' [] →
      flag s' t' = lift false path (flag s (ch k)) → t'.tag? = some (id, 0) → t'.ref? = some ref' →
      Q (.update ⟨nodeLocation id 0, ref'⟩) s') :
    Ensures (do
      let childPage ← getMutClone q
      withPage childPage (mergeWithChildOnDifferentPage fuel p i childPage path)) s Q
      (OnSplit P) := by
  refine .bind (getMutClone_spec h.ready (h.holds.child k) hk fun id s₁ t₁ hc ↦ withPage_spec ?_)
  refine .bind (ensureRoom_spec fuel (P := fun n t ↦ P n (release t id)) hc.placed
    fun s₂ t₂ htag₂ hflag₂ hstep₂ ↦ .bind (deleteValue_spec fun c₃ hc₃ ↦
    .bind (getValue_spec fun n hn ↦ .bind (liftNode_spec fun n' hn' ↦
    .bind (setValue_spec fun c₄ hc₄ ↦ ?_)))))
  have he₂ : Evolves s (ch k).tags s₂ t₂.tags := hc.evolves.trans hstep₂.evolves
  obtain ⟨hb₂, -⟩ := (HeldBelow.of_holds h.holds).replace he₂ hstep₂.holds
  have hapart : (p, i) ∉ t₂.tags := by
    have := hb₂.apart k
    rwa [Function.update_self] at this
  have ho₂ : old s₂ p = false := by rw [he₂.old_eq h.live.1, h.current]
  -- the branch is gone
  have h₃ := erased_deleteValue (fun _ ↦ True) hstep₂.evolves.ready ho₂ hc₃
  have hp₂ : Placed s₂ t₂ id 0 := hc.placed.step hstep₂ (htag₂.trans hc.tag.symm)
  have hp₃ : Placed (s₂.setCells p c₃) t₂ id 0 :=
    ⟨h₃.evolves.ready, hstep₂.holds.evolves h₃.evolves (by simpa using hapart), htag₂,
      by rw [old_setCells, hp₂.current], .inl rfl⟩
  cases ht₂ : t₂ with
  | empty =>
    rw [ht₂] at htag₂
    cases htag₂
  | node c₂ ref₂ pre₂ kind₂ ch₂ =>
  rw [ht₂] at hp₃ htag₂
  cases htag₂
  rw [hp₃.cell hn, Kind.pre_node] at hn'
  have hn' := setPrefix_node hn'
  subst hn'
  -- the child has the longer prefix
  have hstep₄ := hp₃.rewrite (kind₂.rlp (path ++ pre₂) fun l ↦ (ch₂ l).ref?)
    hp₃.holds.allows hc₄
  rw [toRlpNode_eq]
  generalize hs₄ : (s₂.setCells p c₃).setCells id c₄ = s₄ at hstep₄ ⊢
  refine .bind (orphanIfRoot_spec hstep₄.evolves.ready fun s₅ hs₅ ↦ .pure ?_)
  have hp₄ := hp₃.step hstep₄ rfl
  have ho₅ : old s₅ id = false := by rw [hs₅.old_eq, hp₄.current]
  have he₅ := hs₅.evolves _ hstep₄.holds.live
  have he₆ : Evolves s₅ _ (release s₅ id) _ :=
    evolves_release hs₅.ready ho₅ (hs₅.holds hstep₄.holds).live
  have hee : Evolves s (node (p, i) ref pre .branch ch).tags (release s₅ id)
      (fresh (id, 0) (path ++ pre₂) kind₂ ch₂).tags := by
    have hF : ∀ c ∈ [(p, i)], ¬ Vacant s c.1 ∧ stamp s c.1 ≠ none := by simpa using h.live
    have e₂ : Evolves s (node (p, i) ref pre .branch ch).tags s₂ ([(p, i)] ++ t₂.tags) := by
      refine (he₂.frame_right hF).congr (fun d hd ↦ ?_) fun d hd ↦ ?_
      · rcases List.mem_append.mp hd with hd | hd
        · exact mem_tags_node.mpr (.inr ⟨k, hd⟩)
        · rw [List.mem_singleton.mp hd]
          exact mem_tags_node.mpr (.inl rfl)
      · exact List.mem_append.mpr (List.mem_append.mp hd).symm
    have e₃ : Evolves s₂ ([(p, i)] ++ t₂.tags) (s₂.setCells p c₃) t₂.tags :=
      h₃.evolves.frame_right hstep₂.holds.live
    rw [ht₂] at e₂ e₃
    exact (((e₂.trans e₃).trans hstep₄.evolves).trans he₅).trans he₆
  refine hQ (release s₅ id) id _ (fresh (id, 0) (path ++ pre₂) kind₂ ch₂)
    ⟨(hs₅.holds hstep₄.holds).release hs₅.ready ho₅, hee, fun r hr ↦ ?_, fun _ r ↦ ?_,
      fun hfull ↦ ?_⟩ ?_ rfl rfl
  · obtain ⟨hr, hne⟩ := dirty_release r hr
    have hr := hstep₂.cleaner r (h₃.cleaner r (hstep₄.cleaner r (hs₅.cleaner r hr)))
    exact (hc.dirty r hr).resolve_left hne
  · have b₂ := (hc.balance.trans (hstep₂.balance (by simp)) hc.evolves.count
      hstep₂.evolves.count) r
    have b₃ := h₃.count r
    have b₄ : orphanCount s₄ r = orphanCount (s₂.setCells p c₃) r := by rw [← hs₄]; rfl
    have b₅ := hs₅.count r
    have b₆ : orphanCount (release s₅ id) r = orphanCount s₅ r := rfl
    have hstray : (release s₅ id).strayPages = s₂.strayPages := by
      show s₅.strayPages = _
      rw [hs₅.stray, ← hs₄]
      rfl
    have hadded : added s (release s₅ id) r = added s s₂ r := by
      have : (release s₅ id).engine.pageManager.pageCount = s₂.engine.pageManager.pageCount := by
        show s₅.engine.pageManager.pageCount = _
        rw [hs₅.pages, ← hs₄]
        rfl
      simp only [added, this]
    have htags : (fresh (id, 0) (path ++ pre₂) kind₂ ch₂).tags = t₂.tags := by
      rw [ht₂]
      rfl
    rw [hstray, hadded, htags, count_tags_only hch]
    omega
  · -- the child, with the branch above it
    have k₂ : Clears s (node (p, i) ref pre .branch ch).tags s₂
        (node (p, i) ref pre .branch (Function.update ch k t₂)).tags := by
      refine (HeldBelow.of_holds h.holds).clears h.holds.linked h.first_not_mem (fun hf ↦ ?_) hfull
      have hcl := hc.clears hf
      exact hcl.trans (hstep₂.clears (hcl.full hf)) hc.evolves.vacant
    have htags (d : Loc) : d ∈ (node (p, i) ref pre .branch (Function.update ch k t₂)).tags ↔
        d = (p, i) ∨ d ∈ t₂.tags := by
      rw [HeldBelow.mem_tags_update, or_comm]
      refine or_congr_left (or_iff_left ?_)
      rintro ⟨j, hj, hd⟩
      rw [hch j hj] at hd
      cases hd
    have k₃ : Clears s₂ (node (p, i) ref pre .branch (Function.update ch k t₂)).tags
        (s₂.setCells p c₃) t₂.tags := by
      refine clears_setCells (fun d hd ↦ (hstep₂.holds.live d hd).1)
        (fun r hr ↦ (htags _).mpr (.inr hr)) (fun d hd hdp ↦ ?_) fun j hj hjm ↦ ?_
      · rcases (htags d).mp hd with rfl | hd
        · exact absurd rfl hdp
        · exact hd
      · rw [hc₃] at hj
        split at hj
        · exact absurd rfl hj
        · next hji =>
          refine ⟨hj, fun hm ↦ ?_⟩
          rcases (htags _).mp hm with he | hm
          · exact hji (Prod.mk.inj he).2
          · exact hjm hm
    have k₃₂ := k₂.trans k₃ he₂.vacant
    have k₄ := k₃₂.trans (ht₂ ▸ hstep₄.clears (ht₂ ▸ k₃₂.full hfull))
      (fun r hr ↦ he₂.vacant r hr)
    refine k₄.trans (.of_cells (fun d hd ↦ (hstep₄.holds.live d hd).1) fun d hd _ ↦ ?_)
      (fun r hr ↦ he₂.vacant r (hstep₄.evolves.vacant r hr))
    rwa [cellAt_release, hs₅.cellAt_eq] at hd
  · have hf₂ : lift false path (flag s (ch k)) = lift false path (flag s₂ t₂) := by
      rw [hflag₂, hc.flag, lift_withTag]
    have ho₆ : old (release s₅ id) id = false := by
      rw [he₆.old_eq (hs₅.holds hstep₄.holds).root_live.1, ho₅]
    rw [hf₂, ht₂, flag_fresh, ho₆, Bool.and_false]
    have hch₂ (l : Fin 16) : flag (release s₅ id) (ch₂ l) = flag s₂ (ch₂ l) := by
      have hl : Holds (s₂.setCells p c₃) (ch₂ l) := hp₃.holds.child l
      rw [hl.flag_eq ((hstep₄.evolves.trans he₅).trans he₆), flag_setCells]
    simp only [hch₂]
    rfl

omit [AlloyTrie] in
/-- The children of a branch are those in the places in use. -/
private theorem enumerate_eq (ch : Fin 16 → Trie Loc) (l : List (Fin 16)) :
    (l.filterMap fun k ↦ (ch k).pointer?.map (k, ·)).map Prod.fst =
      l.filter fun k ↦ !(ch k).isEmpty := by
  induction l with
  | nil => rfl
  | cons k l ih =>
    cases hk : ch k with
    | empty =>
      rw [List.filterMap_cons_none (by simp [hk, pointer?]), ih,
        List.filter_cons_of_neg (by simp [hk])]
    | node c ref pre kind ch' =>
      rw [List.filterMap_cons_some (by rw [hk]; rfl), List.map_cons, ih,
        List.filter_cons_of_pos (by simp [hk, isEmpty])]

omit [AlloyTrie] in
private theorem occupied_flag (s : State Cells) (ch : Fin 16 → Trie Loc) :
    occupied (fun k ↦ flag s (ch k)) = occupied ch := by
  simp only [occupied, flag, isEmpty_map]

private theorem handleBranchNodeCleanup_spec (fuel : Nat)
    (h : Placed s (node (p, i) ref pre .branch ch) p i) :
    Ensures (handleBranchNodeCleanup fuel p i (Kind.branch.node pre fun l ↦ (ch l).pointer?)) s
      (Cleaned s (p, i) ref pre ch) (OnSplit P) := by
  refine .bind (liftNode_spec fun l hl ↦ ?_)
  have hl := h.holds.enumerateChildren hl
  have hocc : l.map Prod.fst = occupied fun k ↦ flag s (ch k) := by
    rw [occupied_flag, hl]
    exact enumerate_eq ch _
  have hmem (k : Fin 16) (ptr : Pointer) (hk : (k, ptr) ∈ l) : (ch k).pointer? = some ptr := by
    rw [hl, List.mem_filterMap] at hk
    obtain ⟨j, -, hj⟩ := hk
    obtain ⟨ptr', hptr, heq⟩ := Option.map_eq_some_iff.mp hj
    cases heq
    exact hptr
  have hnone (k : Fin 16) (hk : k ∉ l.map Prod.fst) : ch k = empty := by
    by_contra hne
    rw [hocc, occupied_flag] at hk
    exact hk (List.mem_filter.mpr ⟨List.mem_finRange k, by simpa using hne⟩)
  unfold Cleaned cleanup
  rw [← hocc]
  match l, hmem, hnone with
  | [], hmem, hnone =>
    exact cleanEmpty_spec h (fun k ↦ hnone k (by simp)) fun s' hstep ↦ ⟨empty, hstep, rfl, rfl, rfl⟩
  | [(k, ptr)], hmem, hnone =>
    have hch (j : Fin 16) (hj : j ≠ k) : ch j = empty := hnone j (by simpa using hj)
    have hp := hmem k ptr List.mem_cons_self
    obtain ⟨-, ⟨l, hl, hloc, htag⟩ | ⟨q, hloc, htag⟩⟩ := pointer?_cases (h.holds.linked k) hp
    · simp only [mergeBranchWithOnlyChild, Kind.pre_node, hloc]
      cases hk : ch k with
      | empty =>
        rw [hk] at htag
        cases htag
      | node c' ref' pre' kind' ch' =>
        have hc' : c' = (p, l) := by
          rw [hk] at htag
          exact Option.some.inj htag
        subst hc'
        refine mergeWithChildOnSamePage_spec h hch hk hl fun s' hstep hflag ↦
          ⟨_, hstep, hflag, rfl, rfl, .inl rfl⟩
    · simp only [mergeBranchWithOnlyChild, Kind.pre_node, hloc]
      refine mergeOther_spec fuel h hch htag fun s' id ref' t' hstep hflag ht' hr' ↦
        ⟨t', hstep, hflag, rfl, pointer?_eq_some ht' hr', .inr ⟨id, ht'⟩⟩
  | _ :: _ :: _, hmem, hnone =>
    refine .pure ⟨fresh (p, i) pre .branch ch, h.of_refl.withRef _, ?_, rfl, ?_, .inl rfl⟩
    · rw [flag_fresh, h.current, Bool.and_false]
      rfl
    · rw [toRlpNode_eq]
      rfl

end

section
variable {visit : Changes → Nat → Nat → Nat → EngineM Cells PointerChange} {ref : RlpNode}
  {pre : Nibbles} {ch : Fin 16 → Trie Loc}

omit [AlloyTrie] in
/-- The places before a place are the first ones. -/
private theorem take_finRange {l₁ l₂ : List (Fin 16)} {k : Fin 16}
    (h : List.finRange 16 = l₁ ++ k :: l₂) :
    (List.finRange 16).take k = l₁ ∧ (∀ j ≤ k, j ∈ l₁ ++ [k]) ∧ (∀ j < k, j ∈ l₁) ∧
      ∀ j, k < j → j ∉ l₁ ++ [k] := by
  have hsorted := List.pairwise_lt_finRange 16
  rw [h, List.pairwise_append, List.pairwise_cons] at hsorted
  obtain ⟨-, ⟨hk, -⟩, hlt⟩ := hsorted
  have hmem (j : Fin 16) : j ∈ l₁ ∨ j = k ∨ j ∈ l₂ := by
    have := List.mem_finRange j
    rw [h] at this
    simpa using this
  have hlen : l₁.length = k := by
    have hget : (List.finRange 16)[l₁.length]? = some k := by
      rw [h]
      simp
    obtain ⟨hlt, hget⟩ := List.getElem?_eq_some_iff.mp hget
    rw [List.getElem_finRange] at hget
    rw [← hget]
    rfl
  refine ⟨?_, fun j hj ↦ ?_, fun j hj ↦ ?_, fun j hj hm ↦ ?_⟩
  · rw [h, ← hlen]
    simp
  · rcases hmem j with hm | hm | hm
    · simp [hm]
    · simp [hm]
    · exact absurd (hk j hm) (not_lt.mpr hj)
  · rcases hmem j with hm | hm | hm
    · exact hm
    · exact absurd hj (by simp [hm])
    · exact absurd (hk j hm) (lt_asymm hj)
  · rcases List.mem_append.mp hm with hm | hm
    · exact lt_asymm hj (hlt j hm k List.mem_cons_self)
    · rw [List.mem_singleton.mp hm] at hj
      exact lt_irrefl _ hj

/-- The changes below a branch. -/
theorem handleBranchNodeTraversal_spec (hv : Visits visit) (fuel : Nat) {changes : Changes}
    {offset : Nat} {g : Fin 16 → Changes} (h : Placed s (node (p, i) ref pre .branch ch) p i)
    (hne : changes ≠ []) (hcs : rel offset changes = regroup pre g) (hg : ∀ k, Sorted (g k)) :
    Ensures (handleBranchNodeTraversal fuel visit changes offset p i
        (Kind.branch.node pre fun l ↦ (ch l).pointer?) pre) s
      (Done .node s (node (p, i) ref pre .branch ch) (rel offset changes))
      (OnSplit (Halted .node s (node (p, i) ref pre .branch ch) p (rel offset changes))) := by
  have hne : regroup pre g ≠ [] := by
    rw [← hcs]
    simpa using hne
  rw [hcs]
  refine .seq ((traverseChildren_spec hv fuel hg (List.finRange 16) (List.nodup_finRange 16) 0 hcs
    h).mono (fun _ _ h ↦ h) ?_) ?_
  · intro e s' hh n hn
    obtain ⟨s₁, ch', o, m, fuel', l₁, l₂, k₀, n₀, hl, hslots, ho, hstop, hn, hstep, hsplit⟩ :=
      hh n hn
    obtain ⟨htake, hle, hlt, hgt⟩ := take_finRange hl
    refine ⟨s₁, node (p, i) ref pre .branch ch', (List.finRange 16).flatMap m, fuel', ?_, ?_, rfl,
      rfl, hsplit⟩
    · have h₁ := h.step hstep rfl
      rw [h.flag_eq, h₁.flag_eq]
      have hcount : n = countBefore g k₀ + n₀ := by
        rw [hn, countBefore, htake, Nat.zero_add]
      rw [hcount]
      refine .branchStop (fun k hk ↦ hslots.exec k (hle k hk)) (fun k hk ↦ ho k (hlt k hk)) hstop
        fun k hk ↦ ?_
      obtain ⟨hc, hm⟩ := hslots.others k (hgt k hk)
      refine ⟨?_, hm⟩
      rw [hc, (h.holds.child k).flag_eq hstep.evolves]
    · have hm : (List.finRange 16).flatMap m = (l₁ ++ [k₀]).flatMap m := by
        rw [hl, List.append_cons, List.flatMap_append]
        have : l₂.flatMap m = [] := by
          rw [List.flatMap_eq_nil_iff]
          intro k hk
          refine (hslots.others k fun hmem ↦ ?_).2
          have hnd := List.nodup_finRange 16
          rw [hl, List.append_cons, List.nodup_append] at hnd
          exact hnd.2.2 k hmem k hk rfl
        rw [this, List.append_nil]
      rw [hm]
      exact hstep
  · rintro ⟨handled, n⟩ s₁ ⟨ch', o, m, hslots, ho, hn, hstep⟩
    simp only at hn ⊢
    subst hn
    split
    · have h₁ := h.step hstep rfl
      refine (handleBranchNodeCleanup_spec fuel h₁).mono ?_ fun _ _ h ↦ h
      rintro change s' ⟨t', hstep', hflag, hr⟩
      refine ⟨t', _, (List.finRange 16).flatMap m, ?_, ?_, hr.congr rfl rfl⟩
      · rw [h.flag_eq, hflag]
        exact .branch hne (fun k ↦ hslots.exec k (List.mem_finRange k))
          fun k ↦ ho k (List.mem_finRange k)
      · simpa using hstep.trans hstep'
    · exact throw_spec (by simp)

end

end TrieDb.Layout
