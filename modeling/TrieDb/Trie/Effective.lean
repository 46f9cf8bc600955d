import TrieDb.Trie.Applied

/-!
# Pages that a batch really changes

The recursion copies every page from before the transaction that a change leads to, and drops the
copy when nothing on the page changes. A batch that changes the contents of all such pages drops no
copy; this is shown for whole runs, restarts included. What a change is to a subtrie is its part
below the prefixes on the way there.
-/

namespace TrieDb

open Engine (Change Changes)
open Trie

/-- The part of a change below a prefix. -/
def part (pre : Nibbles) (c : Change) : Option Change :=
  if pre <+: c.1 then some (c.1.drop pre.length, c.2) else none

/-- The part of a change for the slots of the account at a path. -/
def slotPart (pre : Nibbles) (c : Change) : Option Change :=
  (part pre c).filter fun d ↦ d.1 ≠ []

namespace Trie

variable {α : Type}

/-- A subtrie, and what a change of the trie is to it. -/
inductive Route : Trie α → (Change → Option Change) → Trie α → Prop
  | here {t} : Route t some t
  | child {tag ref pre ch i f u} (h : Route (ch i) f u) :
      Route (node tag ref pre .branch ch) (fun c ↦ (part (pre ++ [i]) c).bind f) u
  | storage {tag ref pre info ch f u} (h : Route (ch 0) f u) :
      Route (node tag ref pre (.leaf (.account info)) ch) (fun c ↦ (slotPart pre c).bind f) u

end Trie

/-- The batch changes the contents of every page from before the transaction that it leads to. -/
def Effective (t : Trie Bool) (cs : Changes) : Prop :=
  ∀ f u, Route t f u → u.tag? = some true → cs.filterMap f ≠ [] →
    Entries.update u.lookup (cs.filterMap f) ≠ u.lookup

/-- The changes that need not be applied again. -/
def Out.done : Out → Changes → Changes
  | stop k, cs => cs.take k
  | _, cs => cs

/-- A page from before the transaction that is still there was there before, and no change that has
been applied leads to it. -/
def Spared (t : Trie Bool) (cs : Changes) (o : Out) (t' : Trie Bool) : Prop :=
  ∀ f u, Route t' f u → u.tag? = some true → Route t f u ∧ ∀ c ∈ o.done cs, f c = none

/-! ### Parts of changes -/

section
variable {p q pre path : Nibbles} {c : Change} {x : Option TrieValue} {i j : Fin 16}

/-- The part of a change below its beginning. -/
@[simp] theorem part_append (p q : Nibbles) (x : Option TrieValue) :
    part p (p ++ q, x) = some (q, x) := by
  simp [part]

/-- The part of a change at its own path. -/
@[simp] theorem part_self (p : Nibbles) (x : Option TrieValue) : part p (p, x) = some ([], x) := by
  simp [part]

private theorem part_of_not (h : ¬ p <+: c.1) : part p c = none := if_neg h

/-- Prefixes are cut off one after the other. -/
private theorem part_part (p q : Nibbles) (c : Change) :
    part (p ++ q) c = (part p c).bind (part q) := by
  by_cases hp : p <+: c.1
  · obtain ⟨path, x⟩ := c
    obtain ⟨r, rfl⟩ := hp
    by_cases hq : q <+: r
    · obtain ⟨s, rfl⟩ := hq
      rw [← List.append_assoc, part_append, List.append_assoc, part_append, Option.bind_some,
        part_append]
    · have hpq : ¬ p ++ q <+: p ++ r := by simpa using hq
      rw [part_append, Option.bind_some, part_of_not (c := (r, x)) hq,
        part_of_not (c := (p ++ r, x)) hpq]
  · rw [part_of_not hp, part_of_not fun h ↦ hp ((List.prefix_append p q).trans h)]
    rfl

private theorem slotPart_part (p q : Nibbles) (c : Change) :
    slotPart (p ++ q) c = (part p c).bind (slotPart q) := by
  simp only [slotPart, part_part]
  cases part p c with
  | none => rfl
  | some d => rfl

private theorem slotPart_append (h : q ≠ []) : slotPart pre (pre ++ q, x) = some (q, x) := by
  simp [slotPart, h]

/-- A change at an account is not one of its slots. -/
@[simp] theorem slotPart_self : slotPart pre (pre, x) = none := by
  simp [slotPart]

private theorem slotPart_of_not (h : ¬ pre <+: c.1) : slotPart pre c = none := by
  simp [slotPart, part_of_not h]

/-- A change at a branch is not one of its children. -/
@[simp] theorem part_child_self (pre : Nibbles) (i : Fin 16) (x : Option TrieValue) :
    part (pre ++ [i]) (pre, x) = none := by
  apply part_of_not
  intro h
  have hlen := h.length_le
  simp only [List.length_append, List.length_singleton] at hlen
  omega

private theorem part_child (pre q : Nibbles) (i j : Fin 16) (x : Option TrieValue) :
    part (pre ++ [i]) (pre ++ j :: q, x) = if i = j then some (q, x) else none := by
  rw [part_part, part_append, Option.bind_some]
  by_cases hij : i = j
  · subst hij
    rw [if_pos rfl]
    exact part_append [i] q x
  · rw [if_neg hij, part_of_not]
    simpa [List.cons_prefix_cons] using hij

end

/-! ### Ways to pages from before the transaction -/

namespace Trie

variable {t u : Trie Bool} {ref ref' : RlpNode} {pre p : Nibbles} {kind : Kind}
  {ch ch' : Fin 16 → Trie Bool} {f : Change → Option Change} {c : Change} {info : AccountInfo}
  {tag : Bool}

private theorem Route.of_empty (h : Route (empty : Trie Bool) f u) (hu : u.tag? = some true) :
    False := by
  cases h
  cases hu

/-- The ways below a branch of the present transaction. -/
private theorem route_branch (hu : u.tag? = some true) :
    Route (node false ref pre .branch ch) f u ↔
      ∃ i f', Route (ch i) f' u ∧ f = fun c ↦ (part (pre ++ [i]) c).bind f' := by
  constructor
  · intro h
    cases h with
    | here => cases hu
    | child h => exact ⟨_, _, h, rfl⟩
  · rintro ⟨i, f', h, rfl⟩
    exact .child h

/-- The ways below an account of the present transaction. -/
private theorem route_account (hu : u.tag? = some true) :
    Route (node false ref pre (.leaf (.account info)) ch) f u ↔
      ∃ f', Route (ch 0) f' u ∧ f = fun c ↦ (slotPart pre c).bind f' := by
  constructor
  · intro h
    cases h with
    | here => cases hu
    | storage h => exact ⟨_, h, rfl⟩
  · rintro ⟨f', h, rfl⟩
    exact .storage h

/-- There is nothing below a slot. -/
private theorem not_route_slot {v : U256} (hu : u.tag? = some true) :
    ¬ Route (node false ref pre (.leaf (.slot v)) ch) f u := by
  intro h
  cases h
  cases hu

/-- A node of the present transaction is not what is looked for. -/
private theorem Route.congr (h : Route (node false ref pre kind ch) f u) (hu : u.tag? = some true) :
    Route (node tag ref' pre kind ch) f u := by
  rcases kind with (_ | _) | _
  · obtain ⟨f', hbelow, rfl⟩ := (route_account hu).mp h
    exact .storage hbelow
  · exact absurd h (not_route_slot hu)
  · obtain ⟨i, f', hbelow, rfl⟩ := (route_branch hu).mp h
    exact .child hbelow

private theorem Route.of_withTag (h : Route (t.withTag false) f u) (hu : u.tag? = some true) :
    Route t f u := by
  cases t with
  | empty => exact h
  | node tag ref pre kind ch => exact h.congr hu

private theorem Route.of_withRef (h : Route (t.withRef ref) f u) (ht : t.tag? ≠ some true)
    (hu : u.tag? = some true) : Route t f u := by
  cases t with
  | empty => exact h
  | node tag ref' pre kind ch =>
    cases tag with
    | false => exact h.congr hu
    | true => exact absurd rfl ht

/-- A shorter prefix. -/
private theorem Route.cut (h : Route (node false ref (p ++ pre) kind ch) f u)
    (hu : u.tag? = some true) :
    ∃ f', Route (node tag ref' pre kind ch) f' u ∧ f = fun c ↦ (part p c).bind f' := by
  rcases kind with (_ | _) | _
  · obtain ⟨f', hbelow, rfl⟩ := (route_account hu).mp h
    refine ⟨_, .storage hbelow, funext fun c ↦ ?_⟩
    rw [slotPart_part, Option.bind_assoc]
  · exact absurd h (not_route_slot hu)
  · obtain ⟨i, f', hbelow, rfl⟩ := (route_branch hu).mp h
    refine ⟨_, .child hbelow, funext fun c ↦ ?_⟩
    rw [List.append_assoc, part_part, Option.bind_assoc]

/-- A longer prefix. -/
private theorem Route.extend (h : Route (node false ref pre kind ch) f u)
    (hu : u.tag? = some true) :
    Route (node tag ref' (p ++ pre) kind ch) (fun c ↦ (part p c).bind f) u := by
  rcases kind with (info | _) | _
  · obtain ⟨f', hbelow, rfl⟩ := (route_account hu).mp h
    have hroute : Route (node tag ref' (p ++ pre) (.leaf (.account info)) ch)
        (fun c ↦ (slotPart (p ++ pre) c).bind f') u := .storage hbelow
    simpa only [slotPart_part, Option.bind_assoc] using hroute
  · exact absurd h (not_route_slot hu)
  · obtain ⟨i, f', hbelow, rfl⟩ := (route_branch hu).mp h
    have hroute : Route (node tag ref' (p ++ pre) .branch ch)
        (fun c ↦ (part (p ++ pre ++ [i]) c).bind f') u := .child hbelow
    simpa only [List.append_assoc, part_part, Option.bind_assoc] using hroute

/-- Changes that leave a node of the present transaction do not lead below it. -/
private theorem Route.outside (h : Route (node false ref pre kind ch) f u) (hu : u.tag? = some true)
    (hc : ¬ pre <+: c.1) : f c = none := by
  rcases kind with (_ | _) | _
  · obtain ⟨f', -, rfl⟩ := (route_account hu).mp h
    simp [slotPart_of_not hc]
  · exact absurd h (not_route_slot hu)
  · obtain ⟨i, f', -, rfl⟩ := (route_branch hu).mp h
    simp [part_of_not fun hp ↦ hc ((List.prefix_append pre [i]).trans hp)]

/-- A change at a node of the present transaction does not lead below it. -/
private theorem Route.at_node {x : Option TrieValue} (h : Route (node false ref pre kind ch) f u)
    (hu : u.tag? = some true) : f (pre, x) = none := by
  rcases kind with (_ | _) | _
  · obtain ⟨f', -, rfl⟩ := (route_account hu).mp h
    simp
  · exact absurd h (not_route_slot hu)
  · obtain ⟨i, f', -, rfl⟩ := (route_branch hu).mp h
    simp

/-- An account without storage has no pages below it. -/
private theorem not_route_noStorage (hch : ch 0 = empty) (hu : u.tag? = some true) :
    ¬ Route (node false ref pre (.leaf (.account info)) ch) f u := by
  intro h
  obtain ⟨f', h, -⟩ := (route_account hu).mp h
  rw [hch] at h
  exact h.of_empty hu

/-- Another value for a leaf. -/
private theorem Route.of_value {e e' : Entry} {l : Level} {n : Nat}
    (h : Route (node false ref pre (.leaf e') ch) f u) (hu : u.tag? = some true)
    (he : l.Admits n pre.length e) (he' : l.Admits n pre.length e') :
    Route (node false ref pre (.leaf e) ch) f u := by
  rcases he.isAccount he' with ⟨a, a', rfl, rfl⟩ | ⟨x, x', rfl, rfl⟩
  · exact (route_account hu).mpr ((route_account hu).mp h)
  · exact absurd h (not_route_slot hu)

section
variable [AlloyTrie]

/-- A new leaf is on a page of the present transaction. -/
private theorem not_route_leaf {path : Nibbles} {e : Entry} (hu : u.tag? = some true) :
    ¬ Route (leaf false path e) f u := by
  intro h
  cases e with
  | account info => exact not_route_noStorage rfl hu h
  | slot v => exact not_route_slot hu h

/-- The branch above a node leads to what the node leads to. -/
private theorem route_above {length : Nat} (hl : length < pre.length) (hu : u.tag? = some true) :
    Route (Trie.above false length (node false ref pre kind ch)) f u ↔
      Route (node false ref pre kind ch) f u := by
  obtain ⟨i, rest, hdrop⟩ := List.exists_cons_of_ne_nil
    (show pre.drop length ≠ [] by simpa using hl)
  have hpre : pre = pre.take length ++ [i] ++ rest := by
    rw [List.append_assoc, List.singleton_append, ← hdrop, List.take_append_drop]
  simp only [Trie.above, hdrop]
  generalize pre.take length = p at hpre ⊢
  subst hpre
  rw [route_branch hu]
  constructor
  · rintro ⟨j, f', h, rfl⟩
    by_cases hj : j = i
    · subst hj
      rw [Function.update_self] at h
      exact h.extend hu
    · rw [Function.update_of_ne hj] at h
      exact (h.of_empty hu).elim
  · intro h
    obtain ⟨f', h', rfl⟩ := h.cut hu
    refine ⟨i, f', ?_, rfl⟩
    rw [Function.update_self]
    exact h'

/-- A branch that is cleaned up leads to what its children lead to. -/
private theorem Route.of_cleanup (h : Route (cleanup false pre ch).2 f u)
    (hu : u.tag? = some true) :
    ∃ i f', Route (ch i) f' u ∧ f = fun c ↦ (part (pre ++ [i]) c).bind f' := by
  unfold cleanup at h
  split at h
  · exact (h.of_empty hu).elim
  · next i _ =>
    cases hi : ch i with
    | empty =>
      rw [hi] at h
      exact (h.of_empty hu).elim
    | node tag ref' pre' kind ch' =>
      rw [hi] at h
      obtain ⟨f', h', hf⟩ : ∃ f', Route (node tag ref' pre' kind ch') f' u ∧
          f = fun c ↦ (part (pre ++ [i]) c).bind f' := Route.cut h hu
      exact ⟨i, f', hi ▸ h', hf⟩
  · exact (route_branch hu).mp h

end

end Trie

/-! ### Parts of batches -/

section
variable {pre : Nibbles} {cs : Changes} {g : Fin 16 → Changes} {f : Change → Option Change}
  {c d : Change} {o : Out}

private theorem filterMap_under (pre : Nibbles) (hcs : ∀ c ∈ cs, c.1 ≠ []) :
    (under pre cs).filterMap (fun c ↦ (slotPart pre c).bind f) = cs.filterMap f := by
  rw [under, List.filterMap_map]
  apply List.filterMap_congr
  intro c hc
  simp only [Function.comp_apply, slotPart_append (hcs c hc), Option.bind_some]

private theorem flatMap_ite {l : List (Fin 16)} (hl : l.Nodup) {i : Fin 16} (hi : i ∈ l)
    (a : Fin 16 → Changes) : (l.flatMap fun j ↦ if i = j then a j else []) = a i := by
  induction l with
  | nil => cases hi
  | cons j l ih =>
    obtain ⟨hj, hl⟩ := List.nodup_cons.mp hl
    rw [List.flatMap_cons]
    by_cases hij : i = j
    · subst hij
      have hrest : (l.flatMap fun j ↦ if i = j then a j else []) = [] := by
        rw [List.flatMap_eq_nil_iff]
        intro k hk
        have hik : i ≠ k := fun he ↦ hj (he ▸ hk)
        rw [if_neg hik]
      rw [if_pos rfl, hrest, List.append_nil]
    · rw [if_neg hij, List.nil_append]
      exact ih hl ((List.mem_cons.mp hi).resolve_left hij)

private theorem filterMap_regroup (pre : Nibbles) (g : Fin 16 → Changes) (i : Fin 16)
    (f : Change → Option Change) :
    (regroup pre g).filterMap (fun c ↦ (part (pre ++ [i]) c).bind f) = (g i).filterMap f := by
  have hparts (j : Fin 16) :
      (under (pre ++ [j]) (g j)).filterMap (fun c ↦ (part (pre ++ [i]) c).bind f) =
        if i = j then (g j).filterMap f else [] := by
    rw [under, List.filterMap_map]
    split
    · next hij =>
      subst hij
      apply List.filterMap_congr
      intro c _
      simp only [Function.comp_apply, part_append, Option.bind_some]
    · next hij =>
      rw [List.filterMap_eq_nil_iff]
      intro c _
      simp only [Function.comp_apply, List.append_assoc, List.singleton_append, part_child, hij,
        if_false, Option.bind_none]
  rw [regroup, List.filterMap_flatMap]
  simp only [hparts]
  exact flatMap_ite (List.nodup_finRange 16) (List.mem_finRange i) _

namespace Out

private theorem done_cons (h : c ∈ o.done (d :: cs)) : c = d ∨ c ∈ o.done cs := by
  cases o with
  | stop k =>
    cases k with
    | zero => cases h
    | succ k =>
      rw [done, List.take_succ_cons, List.mem_cons] at h
      exact h.imp id fun h ↦ List.take_subset_take_left cs (Nat.le_succ k) h
  | _ => exact List.mem_cons.mp h

private theorem done_append (h : c ∈ o.done (cs ++ [d])) : c = d ∨ c ∈ o.done cs := by
  cases o with
  | stop k =>
    rw [done, List.take_append, List.mem_append] at h
    exact h.symm.imp (fun h ↦ List.mem_singleton.mp (List.mem_of_mem_take h)) id
  | _ => exact (List.mem_append.mp h).symm.imp List.mem_singleton.mp id

private theorem done_under : o.done (under pre cs) = under pre (o.done cs) := by
  cases o with
  | stop k => simp [done, under, List.map_take]
  | _ => rfl

private theorem done_eq (ho : o.ended) : o.done cs = cs := by
  cases o with
  | stop => cases ho
  | _ => rfl

end Out

end

namespace Effective

variable {t t' : Trie Bool} {cs ds : Changes}

/-- Another batch that has the same parts. -/
private theorem congr (h : Effective t cs) (hr : ∀ f u, Route t' f u → u.tag? = some true →
    Route t f u ∧ ds.filterMap f = cs.filterMap f) : Effective t' ds := by
  intro f u hu hold hne
  obtain ⟨hroute, heq⟩ := hr f u hu hold
  rw [heq] at hne ⊢
  exact h f u hroute hold hne

/-- A trie without pages from before the transaction. -/
private theorem of_not (h : ∀ f u, u.tag? = some true → ¬ Route t f u) : Effective t cs :=
  fun f u hu hold ↦ absurd hu (h f u hold)

end Effective

/-! ### The recursion -/

namespace Spared

variable {t t' : Trie Bool} {c : Change} {cs : Changes} {o : Out}

/-- A part that leaves the trie and has handled nothing. -/
private theorem refl (ho : o.done cs = []) : Spared t cs o t := by
  intro f u hu _
  refine ⟨hu, fun c hc ↦ ?_⟩
  rw [ho] at hc
  cases hc

/-- A part that leaves no pages from before the transaction. -/
private theorem of_not (h : ∀ f u, u.tag? = some true → ¬ Route t' f u) : Spared t cs o t' :=
  fun f u hu hold ↦ absurd hu (h f u hold)

/-- A change that leads to no page. -/
private theorem cons (h : Spared t cs o t')
    (hc : ∀ f u, Route t f u → u.tag? = some true → f c = none) : Spared t (c :: cs) o t' := by
  intro f u hu hold
  obtain ⟨hroute, hnone⟩ := h f u hu hold
  refine ⟨hroute, fun d hd ↦ ?_⟩
  rcases Out.done_cons hd with rfl | hd
  · exact hc f u hroute hold
  · exact hnone d hd

end Spared

variable [AlloyTrie]

/-- The copy of a page belongs to the present transaction. -/
private theorem Exec.tag_ne_true {mode : Mode} {t t' : Trie Bool} {cs : Changes} {o : Out}
    {m : List Mishap} (h : Exec mode t cs o t' m) (hmode : mode = .node) (ht : t.tag? ≠ some true) :
    t'.tag? ≠ some true := by
  induction h with
  | nil => exact ht
  | skipFirst _ _ ih => exact ih hmode ht
  | skipLast _ _ ih => exact ih hmode ht
  | aboveStop => exact ht
  | @above ref pre kind ch _ _ _ length _ _ _ _ hl _ _ _ _ ih =>
    apply ih hmode
    obtain ⟨i, rest, hdrop⟩ := List.exists_cons_of_ne_nil
      (show pre.drop length ≠ [] by simpa using hl)
    simp [Trie.above, hdrop, tag?]
  | delete => simp [tag?]
  | same _ _ ih => exact ih hmode ht
  | setStop => exact ht
  | @setNone _ _ _ _ _ _ t' _ _ _ _ ih =>
    have := ih hmode (by simp [tag?])
    cases t' with
    | empty => exact this
    | node => exact this
  | setMore _ _ _ _ _ _ ih => exact ih hmode (by simp [tag?])
  | storage => simp [fresh, tag?]
  | storageKeep => simp [tag?]
  | firstSkip _ _ _ ih => exact ih hmode ht
  | firstStop => exact ht
  | firstOnly => simp [fresh, tag?]
  | firstMore _ _ _ _ _ ih => exact ih hmode (by simp [tag?])
  | @branch _ _ _ _ _ ch' =>
    unfold cleanup
    split
    · simp [tag?]
    · next i _ => cases ch' i <;> simp [lift, fresh, tag?]
    · simp [fresh, tag?]
  | branchStop => simp [tag?]
  | _ => cases hmode

/-- The recursion drops no copy of a page, and the pages it leaves alone are those that no applied
change leads to. -/
private theorem Exec.spared {mode : Mode} {t t' : Trie Bool} {cs : Changes} {o : Out}
    {m : List Mishap} {l : Level} {n : Nat} (h : Exec mode t cs o t' m) (hs : Suits l n t cs)
    (hm : .stalled ∉ m)
    (he : Effective t cs) (hne : mode = .child → cs ≠ []) :
    .abandoned ∉ m ∧ Spared t cs o t' := by
  induction h generalizing l n with
  | nil => exact ⟨List.not_mem_nil, .refl rfl⟩
  | @skipFirst ref pre kind ch path cs o t' m hd _ ih =>
    have hout (f u) (hu : Route (node false ref pre kind ch) f u) (hold : u.tag? = some true) :
        f (path, none) = none := hu.outside hold hd
    obtain ⟨ha, hsp⟩ := ih hs.tail hm (he.congr fun f u hu hold ↦ ⟨hu, by
      rw [List.filterMap_cons_none (hout f u hu hold)]⟩) (by simp)
    exact ⟨ha, hsp.cons hout⟩
  | @skipLast ref pre kind ch path cs o t' m hd _ ih =>
    have hout (f u) (hu : Route (node false ref pre kind ch) f u) (hold : u.tag? = some true) :
        f (path, none) = none := hu.outside hold hd
    obtain ⟨ha, hsp⟩ := ih (hs.sublist (List.sublist_append_left _ _)) hm
      (he.congr fun f u hu hold ↦ ⟨hu, by
        rw [List.filterMap_append, List.filterMap_cons_none (hout f u hu hold),
          List.filterMap_nil, List.append_nil]⟩) (by simp)
    refine ⟨ha, fun f u hu hold ↦ ?_⟩
    obtain ⟨hroute, hnone⟩ := hsp f u hu hold
    refine ⟨hroute, fun c hc ↦ ?_⟩
    rcases Out.done_append hc with rfl | hc
    · exact hout f u hroute hold
    · exact hnone c hc
  | aboveStop => exact ⟨List.not_mem_nil, .refl rfl⟩
  | above _ hl _ _ _ _ ih =>
    obtain ⟨ha, hsp⟩ := ih (hs.above hl) hm
      (he.congr fun f u hu hold ↦ ⟨(route_above hl hold).mp hu, rfl⟩) (by simp)
    refine ⟨ha, fun f u hu hold ↦ ?_⟩
    obtain ⟨hroute, hnone⟩ := hsp f u hu hold
    exact ⟨(route_above hl hold).mp hroute, hnone⟩
  | delete => exact ⟨List.not_mem_nil, .of_not fun f u hold hu ↦ hu.of_empty hold⟩
  | same _ _ ih =>
    obtain ⟨ha, hsp⟩ := ih hs.tail hm (he.congr fun f u hu hold ↦ ⟨hu, by
      rw [List.filterMap_cons_none (hu.at_node hold)]⟩) (by simp)
    exact ⟨ha, hsp.cons fun f u hu hold ↦ hu.at_node hold⟩
  | setStop => exact ⟨List.not_mem_nil, .refl rfl⟩
  | @setNone ref pre e ch v cs t' m _ hch h ih =>
    have hadmits := hs.fits.value List.mem_cons_self
    have hvalue (f u) (hu : Route (node false ref pre (.leaf v.entry) ch) f u)
        (hold : u.tag? = some true) : Route (node false ref pre (.leaf e) ch) f u :=
      hu.of_value hold hs.rough.1 hadmits
    obtain ⟨ha, hsp⟩ := ih (hs.afterValue hch) hm (he.congr fun f u hu hold ↦
      ⟨hvalue f u hu hold, by rw [List.filterMap_cons_none (hu.at_node hold)]⟩) (by simp)
    refine ⟨ha, fun f u hu hold ↦ ?_⟩
    have hu := hu.of_withRef (h.tag_ne_true rfl (by simp [tag?])) hold
    obtain ⟨hroute, hnone⟩ := hsp f u hu hold
    refine ⟨hvalue f u hroute hold, fun c hc ↦ ?_⟩
    rcases List.mem_cons.mp hc with rfl | hc
    · exact hroute.at_node hold
    · exact hnone c hc
  | @setMore ref pre e ch v cs o t' m _ hch _ _ _ _ ih =>
    have hadmits := hs.fits.value List.mem_cons_self
    have hvalue (f u) (hu : Route (node false ref pre (.leaf v.entry) ch) f u)
        (hold : u.tag? = some true) : Route (node false ref pre (.leaf e) ch) f u :=
      hu.of_value hold hs.rough.1 hadmits
    obtain ⟨ha, hsp⟩ := ih (hs.afterValue hch) hm (he.congr fun f u hu hold ↦
      ⟨hvalue f u hu hold, by rw [List.filterMap_cons_none (hu.at_node hold)]⟩) (by simp)
    refine ⟨ha, fun f u hu hold ↦ ?_⟩
    obtain ⟨hroute, hnone⟩ := hsp.cons (fun f u hu hold ↦ hu.at_node hold) f u hu hold
    exact ⟨hvalue f u hroute hold, hnone⟩
  | @storage ref pre info ch cs o st m hcs₀ hcs _ _ ho ih =>
    obtain ⟨ha, hsp⟩ := ih (hs.storage hcs) hm (fun f u hu hold hf ↦ by
      rw [← filterMap_under pre hcs] at hf ⊢
      exact he _ u (.storage hu) hold hf) fun _ ↦ hcs₀
    have ho : o.ended := by rcases ho with rfl | rfl <;> rfl
    refine ⟨ha, fun f u hu hold ↦ ?_⟩
    obtain ⟨f', hbelow, rfl⟩ := (route_account hold).mp hu
    rw [Function.update_self] at hbelow
    obtain ⟨hroute, hnone⟩ := hsp f' u hbelow hold
    refine ⟨.storage hroute, fun c hc ↦ ?_⟩
    obtain ⟨d, hd, rfl⟩ := mem_under.mp hc
    show (slotPart pre (pre ++ d.1, d.2)).bind f' = none
    rw [slotPart_append (hcs d hd), Option.bind_some]
    exact hnone d (by rwa [Out.done_eq ho])
  | @storageKeep ref pre info ch cs o st m hcs₀ hcs _ _ _ _ ih =>
    obtain ⟨ha, hsp⟩ := ih (hs.storage hcs) hm (fun f u hu hold hf ↦ by
      rw [← filterMap_under pre hcs] at hf ⊢
      exact he _ u (.storage hu) hold hf) fun _ ↦ hcs₀
    refine ⟨ha, fun f u hu hold ↦ ?_⟩
    obtain ⟨f', hbelow, rfl⟩ := (route_account hold).mp hu
    rw [Function.update_self] at hbelow
    obtain ⟨hroute, hnone⟩ := hsp f' u hbelow hold
    refine ⟨.storage hroute, fun c hc ↦ ?_⟩
    rw [Out.done_under] at hc
    obtain ⟨d, hd, rfl⟩ := mem_under.mp hc
    have hd' : d ∈ cs := by
      cases o with
      | stop k => exact List.mem_of_mem_take hd
      | _ => exact hd
    show (slotPart pre (pre ++ d.1, d.2)).bind f' = none
    rw [slotPart_append (hcs d hd'), Option.bind_some]
    exact hnone d hd
  | firstSkip hp hch _ ih =>
    obtain ⟨ha, hsp⟩ := ih hs.tail hm
      (.of_not fun f u hold ↦ not_route_noStorage hch hold) (by simp)
    exact ⟨ha, hsp.cons fun f u hu hold ↦ absurd hu (not_route_noStorage hch hold)⟩
  | firstStop => exact ⟨List.not_mem_nil, .refl rfl⟩
  | firstOnly =>
    refine ⟨List.not_mem_nil, .of_not fun f u hold hu ↦ ?_⟩
    obtain ⟨f', hu, -⟩ := (route_account hold).mp hu
    rw [Function.update_self] at hu
    exact not_route_leaf hold hu
  | @firstMore ref pre info ch path v cs o t' m hp hch _ _ _ ih =>
    have hnot (f : Change → Option Change) (u : Trie Bool) (hold : u.tag? = some true) :
        ¬ Route (node false ref pre (.leaf (.account info))
          (Function.update ch 0 (leaf false path v.entry))) f u := by
      intro hu
      obtain ⟨f', hu, -⟩ := (route_account hold).mp hu
      rw [Function.update_self] at hu
      exact not_route_leaf hold hu
    have ho : o ≠ .none := by
      rintro rfl
      simp at hm
    rw [if_neg ho] at hm ⊢
    obtain ⟨ha, hsp⟩ := ih (hs.firstSlot hp hch) hm (.of_not hnot) (by simp)
    exact ⟨ha, .of_not fun f u hold hu ↦ hnot f u hold (hsp f u hu hold).1⟩
  | @branch ref pre ch g o ch' m _ _ ho ih =>
    have hchild (i : Fin 16) := ih i (hs.branch i) (not_mem_of_flatMap hm i)
      (fun f u hu hold hf ↦ by
        rw [← filterMap_regroup pre g i] at hf ⊢
        exact he _ u (.child hu) hold hf) (by simp)
    refine ⟨fun ha ↦ ?_, fun f u hu hold ↦ ?_⟩
    · obtain ⟨i, -, hi⟩ := List.mem_flatMap.mp ha
      exact (hchild i).1 hi
    · obtain ⟨i, f', hbelow, rfl⟩ := hu.of_cleanup hold
      obtain ⟨hroute, hnone⟩ := (hchild i).2 f' u hbelow hold
      rw [Out.done_eq (ho i)] at hnone
      refine ⟨.child hroute, fun c hc ↦ ?_⟩
      rw [Out.done_eq cleanup_ended.1] at hc
      obtain ⟨j, d, hd, rfl⟩ := mem_regroup.mp hc
      show (part (pre ++ [i]) (pre ++ j :: d.1, d.2)).bind f' = none
      rw [part_child]
      split
      · next hij => exact hnone d (hij ▸ hd)
      · rfl
  | @branchStop ref pre ch g o ch' m i₀ k h ho hn hch ih =>
    have hchild (i : Fin 16) (hi : i ≤ i₀) := ih i hi (hs.branch i) (not_mem_of_flatMap hm i)
      (fun f u hu hold hf ↦ by
        rw [← filterMap_regroup pre g i] at hf ⊢
        exact he _ u (.child hu) hold hf) (by simp)
    have hk : k ≤ (g i₀).length := by
      have hstop := h i₀ le_rfl
      rw [hn] at hstop
      exact hstop.stop_lt.le
    refine ⟨fun ha ↦ ?_, fun f u hu hold ↦ ?_⟩
    · obtain ⟨i, -, hi⟩ := List.mem_flatMap.mp ha
      rcases le_or_gt i i₀ with hle | hlt
      · exact (hchild i hle).1 hi
      · simp [(hch i hlt).2] at hi
    · obtain ⟨i, f', hbelow, rfl⟩ := (route_branch hold).mp hu
      -- the changes handled for the child lead to none of its old pages
      have hpart : Route (ch i) f' u ∧ ∀ d ∈ groupsBefore g i₀ k i, f' d = none := by
        rcases lt_trichotomy i i₀ with hi | rfl | hi
        · obtain ⟨hroute, hnone⟩ := (hchild i hi.le).2 f' u hbelow hold
          rw [Out.done_eq (ho i hi)] at hnone
          exact ⟨hroute, by simpa [groupsBefore, hi] using hnone⟩
        · obtain ⟨hroute, hnone⟩ := (hchild i le_rfl).2 f' u hbelow hold
          rw [hn] at hnone
          exact ⟨hroute, by simpa [groupsBefore, Out.done] using hnone⟩
        · rw [(hch i hi).1] at hbelow
          refine ⟨hbelow, fun d hd ↦ ?_⟩
          simp [groupsBefore, hi.asymm, hi.ne'] at hd
      refine ⟨.child hpart.1, fun c hc ↦ ?_⟩
      rw [Out.done, take_regroup hk] at hc
      obtain ⟨j, d, hd, rfl⟩ := mem_regroup.mp hc
      show (part (pre ++ [i]) (pre ++ j :: d.1, d.2)).bind f' = none
      rw [part_child]
      split
      · next hij => exact hpart.2 d (hij ▸ hd)
      · rfl
  | slotNil => exact ⟨List.not_mem_nil, .refl rfl⟩
  | slotChild _ hcs₀ _ ih => exact ih hs hm he fun _ ↦ hcs₀
  | slotSkip => exact ⟨List.not_mem_nil, .of_not fun f u hold hu ↦ hu.of_empty hold⟩
  | slotStop => exact ⟨List.not_mem_nil, .of_not fun f u hold hu ↦ hu.of_empty hold⟩
  | slotLeaf => exact ⟨List.not_mem_nil, .of_not fun f u hold ↦ not_route_leaf hold⟩
  | slotMore _ _ _ ih =>
    obtain ⟨ha, hsp⟩ := ih hs.newLeaf hm (.of_not fun f u hold ↦ not_route_leaf hold) (by simp)
    exact ⟨ha, .of_not fun f u hold hu ↦ not_route_leaf hold (hsp f u hu hold).1⟩
  | childLocal _ ih => exact ih hs hm he (by simp)
  | childPage _ _ ih =>
    obtain ⟨ha, hsp⟩ := ih hs.withTag hm
      (he.congr fun f u hu hold ↦ ⟨hu.of_withTag hold, rfl⟩) (by simp)
    refine ⟨ha, fun f u hu hold ↦ ?_⟩
    obtain ⟨hroute, hnone⟩ := hsp f u hu hold
    exact ⟨hroute.of_withTag hold, hnone⟩
  | @childAbandon t cs t' m ht h _ =>
    -- the contents of the page have not changed
    have hlook : (t.withTag false).lookup = t.lookup := funext fun q ↦ lookup_withTag ..
    have hsound := h.sound hs.withTag fun hmem ↦ hm (List.mem_cons_of_mem _ hmem)
    rw [hlook] at hsound
    have hsame := (hsound.done rfl).symm.trans (hsound.kept (by simp) rfl)
    have hchanged := he some t .here ht
    rw [List.filterMap_some] at hchanged
    exact absurd hsame (hchanged (hne rfl))
  | pageDone _ _ ih => exact ih hs hm he (by simp)
  | @pageRetry t cs k t₁ m₁ o t' m h h' ih ih' =>
    rw [List.mem_append, not_or] at hm
    obtain ⟨ha, hsp⟩ := ih hs hm.1 he (by simp)
    have hs₁ := h.suits_restart hs (h.sound hs hm.1)
    have he₁ : Effective t₁ (cs.drop k) := by
      apply he.congr
      intro f u hu hold
      obtain ⟨hroute, hnone⟩ := hsp f u hu hold
      refine ⟨hroute, ?_⟩
      have htake : (cs.take k).filterMap f = [] := List.filterMap_eq_nil_iff.mpr hnone
      conv_rhs => rw [← List.take_append_drop k cs, List.filterMap_append, htake, List.nil_append]
    obtain ⟨ha', hsp'⟩ := ih' hs₁ hm.2 he₁ (by simp)
    refine ⟨by rw [List.mem_append, not_or]; exact ⟨ha, ha'⟩, fun f u hu hold ↦ ?_⟩
    obtain ⟨hroute₁, hnone'⟩ := hsp' f u hu hold
    obtain ⟨hroute, hnone⟩ := hsp f u hroute₁ hold
    refine ⟨hroute, fun c hc ↦ ?_⟩
    have ho := h'.ended_of_page rfl
    rw [Out.done_eq ho] at hc hnone'
    rw [← List.take_append_drop k cs, List.mem_append] at hc
    rcases hc with hc | hc
    · exact hnone c hc
    · exact hnone' c hc

/-- A whole batch drops no copy of a page. -/
theorem Applied.not_abandoned {t t' : Trie Bool} {cs : Changes} {m : List Mishap} {l : Level}
    {n : Nat} (h : Applied t cs t' m) (hs : Suits l n t cs) (hm : .stalled ∉ m)
    (he : Effective t cs) (hne : cs ≠ []) : .abandoned ∉ m := by
  cases h with
  | first => exact List.not_mem_nil
  | @firstMore path v cs _ _ _ hcs h _ =>
    have hs' : Suits l n (leaf false path v.entry) cs := Suits.newLeaf (show Suits l n empty
      ([] ++ (path, some v) :: cs) from hs)
    exact (h.spared hs' hm (.of_not fun f u hold ↦ not_route_leaf hold) fun _ ↦ hcs).1
  | root _ h _ => exact (h.spared hs hm he fun _ ↦ hne).1

/-! ### Batches without idle changes -/

/-- No value of the batch is stored already, and everything it deletes is there. -/
def Entries.NoneIdle (f : Entries) (cs : Changes) :
    Prop := ∀ c ∈ cs, f c.1 ≠ c.2.map TrieValue.entry

section
variable {α : Type} {t u : Trie α} {f : Change → Option Change} {cs : Changes}

omit [AlloyTrie] in
/-- The part of a change is what is left of its path, and the value there is the same. -/
private theorem Trie.Route.eq_append (h : Route t f u) : ∃ q, ∀ c d, f c = some d →
    c = (q ++ d.1, d.2) ∧ t.lookup c.1 = u.lookup d.1 := by
  induction h with
  | here =>
    refine ⟨[], fun c d hd ↦ ?_⟩
    cases hd
    exact ⟨rfl, rfl⟩
  | @child tag ref pre ch i f u _ ih =>
    obtain ⟨q, hq⟩ := ih
    refine ⟨pre ++ [i] ++ q, fun c d hd ↦ ?_⟩
    obtain ⟨e, he, hd⟩ := Option.bind_eq_some_iff.mp hd
    obtain ⟨rfl, hlook⟩ := hq e d hd
    obtain ⟨hpre, he⟩ := Option.ite_none_right_eq_some.mp he
    obtain ⟨path, x⟩ := c
    obtain ⟨r, rfl⟩ := hpre
    rw [Option.some.injEq, Prod.mk.injEq, List.drop_left] at he
    obtain ⟨rfl, rfl⟩ := he
    refine ⟨by simp, ?_⟩
    rw [← hlook, List.append_assoc, List.singleton_append]
    exact lookup_branch_append ..
  | @storage tag ref pre info ch f u _ ih =>
    obtain ⟨q, hq⟩ := ih
    refine ⟨pre ++ q, fun c d hd ↦ ?_⟩
    obtain ⟨e, he, hd⟩ := Option.bind_eq_some_iff.mp hd
    obtain ⟨rfl, hlook⟩ := hq e d hd
    obtain ⟨he, hne⟩ := Option.filter_eq_some_iff.mp he
    obtain ⟨hpre, he⟩ := Option.ite_none_right_eq_some.mp he
    obtain ⟨path, x⟩ := c
    obtain ⟨r, rfl⟩ := hpre
    rw [Option.some.injEq, Prod.mk.injEq, List.drop_left] at he
    obtain ⟨rfl, rfl⟩ := he
    refine ⟨by simp, ?_⟩
    obtain ⟨i, r, hr⟩ := List.exists_cons_of_ne_nil (of_decide_eq_true hne)
    have hbelow := lookup_account_append tag ref pre r i info ch
    rw [← hr] at hbelow
    exact hbelow.trans hlook

omit [AlloyTrie] in
/-- A batch without idle changes changes all pages it leads to. -/
theorem Effective.of_noneIdle {t : Trie Bool} (hb : Batch cs) (h : Entries.NoneIdle t.lookup cs) :
    Effective t cs := by
  intro f u hu _ hne heq
  obtain ⟨q, hq⟩ := hu.eq_append
  -- the parts are a batch too
  have hback : under q (cs.filterMap f) = cs.filter fun c ↦ (f c).isSome := by
    rw [under, List.map_filterMap, ← List.filterMap_eq_filter]
    apply List.filterMap_congr
    intro c _
    cases hc : f c with
    | none => simp [Option.guard, hc]
    | some d => simp [Option.guard, hc, ← (hq c d hc).1]
  have hparts : Batch (cs.filterMap f) := by
    rw [← Batch.under_iff, hback]
    exact hb.sublist List.filter_sublist
  obtain ⟨d, hd⟩ := List.exists_mem_of_ne_nil _ hne
  obtain ⟨c, hc, hcd⟩ := List.mem_filterMap.mp hd
  obtain ⟨hpath, hlook⟩ := hq c d hcd
  apply h c hc
  rw [hlook, ← heq, hparts.update_of_touches hd (.inl rfl), hpath]

end

end TrieDb
