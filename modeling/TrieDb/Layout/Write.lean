import TrieDb.Layout.Leaves

/-!
# The write recursion on stored tries

`set_values_in_cloned_page` does what the recursion on tries says.
-/

namespace TrieDb.Layout

open Meta Base Engine Trie

variable [AlloyTrie] {s s' : State Cells} {p i : Nat} {P : Nat → State Cells → Prop} {ref : RlpNode}
  {pre : Nibbles} {kind : Kind} {ch : Fin 16 → Trie Loc}
  {visit : Changes → Nat → Nat → Nat → EngineM Cells PointerChange}

/-! ### A branch above a node -/

/-- The node moves to a new cell, below a branch in its place. -/
private theorem step_above {k : Nat} {j : Fin 16} {path rest : Nibbles} {c : Cells}
    (h : Placed s (node (p, i) ref pre kind ch) p i) (hk : cellAt s (p, k) = none) (hki : k ≠ i)
    (hc : ∀ l, c.cell l =
      if l = i then some (Kind.branch.node path (Function.update (fun _ ↦ none) j
        (some ⟨.cell k, (kind.node rest fun l ↦ (ch l).pointer?).toRlpNode⟩)))
      else if l = k then some (kind.node rest fun l ↦ (ch l).pointer?) else cellAt s (p, l)) :
    Step s (node (p, i) ref pre kind ch) (s.setCells p c) (node (p, i) ref path .branch
      (Function.update (fun _ ↦ empty) j (fresh (p, k) rest kind ch))) [] := by
  have hk0 : k ≠ 0 := fun h0 ↦ h.first (h0 ▸ hk)
  have hlive : ¬ Vacant (s.setCells p c) p ∧ stamp (s.setCells p c) p ≠ none := by
    simpa using h.live
  have hold : old (s.setCells p c) p = false := by simpa using h.current
  have hframe (l : Nat) (hl : l ≠ i) (hn : cellAt s (p, l) ≠ none) :
      c.cell l = cellAt s (p, l) := by
    rw [hc, if_neg hl, if_neg]
    rintro rfl
    exact hn hk
  have he : Evolves s [(p, i)] (s.setCells p c) [] := by
    refine evolves_setCells h.ready h.current (by simp) (by simp) fun l hl hn ↦ hframe l ?_ hn
    rintro rfl
    exact hl List.mem_cons_self
  have hfree (l : Fin 16) : (p, k) ∉ (ch l).tags := fun hm ↦ (h.holds.child l).cell_ne_none hm hk
  -- the node in its new cell
  have hx : Holds (s.setCells p c) (fresh (p, k) rest kind ch) := by
    refine .node ?_ hlive hold h.holds.allows h.holds.linked hfree (fun _ _ ↦ h.holds.disjoint)
      fun l ↦ (h.holds.child l).evolves he (by simpa using h.holds.root_not_mem l)
    simp [hc, hki]
  have hupdate (l : Fin 16) : Function.update (fun _ ↦ empty) j (fresh (p, k) rest kind ch) l =
      if l = j then fresh (p, k) rest kind ch else empty := by
    by_cases hl : l = j
    · rw [hl, Function.update_self, if_pos rfl]
    · rw [Function.update_of_ne hl, if_neg hl]
  have hroot : (p, i) ∉ (fresh (p, k) rest kind ch).tags := by
    intro hm
    rcases mem_tags_node.mp hm with heq | ⟨l, hl⟩
    · exact hki (Prod.mk.inj heq).2.symm
    · exact h.holds.root_not_mem l hl
  refine ⟨.node ?_ hlive hold (fun _ _ ↦ rfl) (fun l ↦ ?_) (fun l ↦ ?_) (fun l l' hl ↦ ?_)
    fun l ↦ ?_, ?_, cleaner_setCells c, fun _ ↦ balance_setCells fun q ↦ ?_, fun _ ↦ ?_⟩
  · rw [cellAt_setCells, if_pos rfl, hc, if_pos rfl, pointers_update]
    congr 2
    have hp : (fresh (p, k) rest kind ch).pointer? =
        some ⟨.cell k, kind.rlp rest fun l ↦ (ch l).ref?⟩ := by
      simp [fresh, pointer?, nodeLocation, hk0]
    rw [toRlpNode_eq, hp]
    rfl
  · rw [hupdate]
    split
    · exact linked_of_tag rfl (.inl rfl)
    · exact linked_empty p
  · rw [hupdate]
    split
    · exact hroot
    · exact List.not_mem_nil
  · rw [hupdate, hupdate]
    by_cases hlj : l = j
    · have hlj' : l' ≠ j := fun he ↦ hl (hlj.trans he.symm)
      rw [if_neg hlj']
      exact List.disjoint_nil_right _
    · rw [if_neg hlj]
      exact List.disjoint_nil_left _
  · rw [hupdate]
    split
    · exact hx
    · exact .empty
  · refine evolves_setCells h.ready h.current (fun d hd ↦ ?_) (fun d hd ↦ ?_) fun l hl hn ↦
      hframe l ?_ hn
    · rcases mem_tags_node.mp hd with rfl | ⟨l, hl⟩
      · exact h.live
      · rw [hupdate] at hl
        split at hl
        · rcases mem_tags_node.mp hl with rfl | ⟨l', hl'⟩
          · exact h.live
          · exact (h.holds.child l').live d hl'
        · cases hl
    · rcases mem_tags_node.mp hd with rfl | ⟨l, hl⟩
      · exact .inl (mem_tags_node.mpr (.inl rfl))
      · rw [hupdate] at hl
        split at hl
        · rcases mem_tags_node.mp hl with rfl | ⟨l', hl'⟩
          · exact .inr hk
          · exact .inl (mem_tags_node.mpr (.inr ⟨l', hl'⟩))
        · cases hl
    · rintro rfl
      exact hl (mem_tags_node.mpr (.inl rfl))
  · have hx0 : (fresh (p, k) rest kind ch).tags.count (q, 0) =
        ((List.finRange 16).map fun l ↦ (ch l).tags.count (q, 0)).sum := by
      rw [fresh, count_tags_node, if_neg (by simp [hk0]), Nat.zero_add]
    rw [count_tags_only (k := j) fun l hl ↦ by rw [hupdate, if_neg hl], Function.update_self, hx0,
      count_tags_node]
  · have hmem (d : Loc) : d ∈ (node (p, i) ref path .branch
        (Function.update (fun _ ↦ empty) j (fresh (p, k) rest kind ch))).tags ↔
        d = (p, k) ∨ d ∈ (node (p, i) ref pre kind ch).tags := by
      rw [HeldBelow.mem_tags_update, fresh, mem_tags_node, mem_tags_node]
      simp only [tags_empty, List.not_mem_nil, and_false, exists_false, or_false]
      exact ⟨fun h ↦ by tauto, fun h ↦ by tauto⟩
    refine clears_setCells (fun d hd ↦ ?_) (fun q hq ↦ ?_) (fun d hd _ ↦ (hmem d).mpr (.inr hd))
      fun l hl hm ↦ ?_
    · rcases (hmem d).mp hd with rfl | hd
      · exact h.live.1
      · exact (h.holds.live d hd).1
    · rcases (hmem _).mp hq with he | hq
      · exact absurd (Prod.mk.inj he).2.symm hk0
      · exact hq
    · rw [hmem, not_or] at hm
      have hli : l ≠ i := fun he ↦ hm.2 (mem_tags_node.mpr (.inl (by rw [he])))
      have hlk : l ≠ k := fun he ↦ hm.1 (by rw [he])
      rw [hc, if_neg hli, if_neg hlk] at hl
      exact ⟨hl, hm.2⟩

private theorem handleMissingParentBranch_spec (hv : Visits visit) (fuel : Nat) {changes : Changes}
    {offset length : Nat} {path : Nibbles} {v : TrieValue}
    (h : Placed s (node (p, i) ref pre kind ch) p i) (hcs : Sorted (rel offset changes))
    (hmem : (path, some v) ∈ rel offset changes) (hl : length < pre.length)
    (hp : pre.take length <+: path) (hd : ¬ pre.take (length + 1) <+: path)
    (hall : ∀ c ∈ rel offset changes, pre.take length <+: c.1) :
    Ensures (handleMissingParentBranch fuel visit changes offset p i
        (kind.node pre fun l ↦ (ch l).pointer?) (pre.take length)) s
      (Done .node s (node (p, i) ref pre kind ch) (rel offset changes))
      (OnSplit (Halted .node s (node (p, i) ref pre kind ch) p (rel offset changes))) := by
  refine .bind (liftNode_spec fun branch hbranch ↦ .bind (numFreeBytes_spec fun free ↦ ?_))
  have hbranch : branch = Kind.branch.node (pre.take length) fun _ ↦ none := by
    simp only [Node.newBranch] at hbranch
    split at hbranch
    · cases hbranch
    · cases hbranch
      rfl
  split
  · refine splitAndRestart_spec fuel p fun s' hs' ↦ ⟨s, _, [], fuel, ?_, h.of_refl, rfl, rfl, hs'⟩
    rw [h.flag_eq]
    exact .aboveStop hmem fun hpre ↦ hd ((List.take_prefix _ _).trans hpre)
  · have hlen : (pre.take length).length = length := by
      rw [List.length_take]
      omega
    rw [Kind.pre_node, hlen]
    cases hdrop : pre.drop length with
    | nil =>
      rw [List.drop_eq_nil_iff] at hdrop
      omega
    | cons j rest =>
      refine .bind (liftNode_spec fun n' hn' ↦ .bind (setValue_spec fun c₁ hc₁ ↦
        .bind (nextFreeCellIndex_spec fun k hk ↦ .bind (liftNode_spec fun branch' hbranch' ↦
        .bind (insertValue_spec fun k' c₂ hk' hfree hc₂ ↦
        .bind (swapCellPointers_spec fun c₃ hc₃ ↦ ?_))))))
      have hkk : k' = k := by
        rw [hk] at hk'
        exact (Except.ok.inj hk').symm
      subst hkk
      have hn' := setPrefix_node hn'
      subst hn'
      rw [hbranch] at hbranch'
      have hbranch' := Kind.putChild_node rfl hbranch'
      subst hbranch'
      simp only [cellAt_setCells, if_true, hc₁] at hfree hc₂
      have hki : k' ≠ i := by
        rintro rfl
        simp at hfree
      rw [if_neg hki] at hfree
      have hc (l : Nat) : c₃.cell l =
          if l = i then some (Kind.branch.node (pre.take length) (Function.update (fun _ ↦ none) j
            (some ⟨.cell k', (kind.node rest fun l ↦ (ch l).pointer?).toRlpNode⟩)))
          else if l = k' then some (kind.node rest fun l ↦ (ch l).pointer?)
          else cellAt s (p, l) := by
        rw [hc₃]
        simp only [cellAt_setCells, if_true, hc₂]
        by_cases hli : l = i
        · rw [hli, Equiv.swap_apply_left, if_pos rfl, if_pos rfl]
        · rw [if_neg hli]
          by_cases hlk : l = k'
          · rw [hlk, Equiv.swap_apply_right, if_neg hki.symm, if_pos rfl, if_pos rfl]
          · rw [if_neg hlk, Equiv.swap_apply_of_ne_of_ne hli hlk, if_neg hlk, if_neg hli]
      rw [setCells_setCells, setCells_setCells]
      have hstep := step_above h hfree hki hc
      have h₁ := h.step hstep rfl
      have hflag : flag (s.setCells p c₃) (node (p, i) ref (pre.take length) .branch
          (Function.update (fun _ ↦ empty) j (fresh (p, k') rest kind ch))) =
          Trie.above false length (node false ref pre kind fun l ↦ flag s (ch l)) := by
        have hk0 : k' ≠ 0 := fun h0 ↦ h.first (h0 ▸ hfree)
        rw [h₁.flag_eq]
        simp only [Trie.above, hdrop]
        congr 1
        funext l
        by_cases hlj : l = j
        · rw [hlj, Function.update_self, Function.update_self, flag_setCells, flag_fresh]
          simp [hk0]
        · rw [Function.update_of_ne hlj, Function.update_of_ne hlj]
          rfl
      refine (hv _ _ changes offset p i h₁ hcs).mono ?_ ?_
      · rintro change s' ⟨t', o, m, he, hstep', hr⟩
        rw [hflag] at he
        refine ⟨t', o, m, ?_, by simpa using hstep.trans hstep', hr.congr rfl rfl⟩
        rw [h.flag_eq]
        exact .above hmem hl hp hd hall he
      · intro e s' hh n hn
        obtain ⟨s₂, t₂, m, fuel', he, hstep', htag, href, hsplit⟩ := hh n hn
        rw [hflag] at he
        refine ⟨s₂, t₂, m, fuel', ?_, by simpa using hstep.trans hstep', htag, href, hsplit⟩
        rw [h.flag_eq]
        exact .above hmem hl hp hd hall he

/-! ### The recursion -/

omit [AlloyTrie] in
private theorem dropLast_getLastD (first : Change) (others : Changes) (h : others ≠ []) :
    first :: others = (first :: others).take others.length ++ [others.getLastD first] := by
  have h₁ : (first :: others).take others.length = (first :: others).dropLast := by
    rw [List.dropLast_eq_take]
    simp
  rw [h₁, List.getLastD_eq_getLast?, List.getLast?_eq_some_getLast h]
  have h₂ := List.dropLast_append_getLast (List.cons_ne_nil first others)
  rw [List.getLast_cons h] at h₂
  exact h₂.symm

omit [AlloyTrie] in
/-- A batch whose ends extend a prefix. -/
private theorem prefix_of_first_last {first : Change} {others : Changes} {offset : Nat}
    (hcs : Sorted (rel offset (first :: others))) (hfirst : pre <+: first.1.drop offset)
    (hlast : pre <+: (others.getLastD first).1.drop offset) :
    ∀ c ∈ rel offset (first :: others), pre <+: c.1 := by
  intro c hc
  refine hcs.prefix_of_ends hfirst ?_ hc
  have := getLastD_rel offset first others
  simp only [rel] at this ⊢
  rw [this]
  exact hlast

omit [AlloyTrie] in
/-- All changes are below a node, none of them at it. -/
private theorem under_of_first {first : Change} {others : Changes} {offset : Nat}
    (hcs : Sorted (rel offset (first :: others))) (hfirst : pre <+: first.1.drop offset)
    (hlast : pre <+: (others.getLastD first).1.drop offset) (hne : first.1.drop offset ≠ pre) :
    rel offset (first :: others) = under pre (rel pre.length (rel offset (first :: others))) ∧
      ∀ c ∈ rel pre.length (rel offset (first :: others)), c.1 ≠ [] := by
  have hall := prefix_of_first_last hcs hfirst hlast
  have hunder := eq_under hall
  refine ⟨hunder, fun c hc hnil ↦ hne ?_⟩
  obtain ⟨path, v⟩ := c
  simp only at hnil
  subst hnil
  have hmem : (pre, v) ∈ rel offset (first :: others) := by
    rw [hunder]
    exact mem_under.mpr ⟨([], v), hc, by simp⟩
  have hle := (hcs.between hmem).1
  obtain ⟨x, hx⟩ := hfirst
  simp only at hle
  rw [← hx] at hle
  rw [← hx, eq_nil_of_append_pathLe hle, List.append_nil]

/-- A delete outside the prefix of the node. -/
private theorem skip_spec (hv : Visits visit) {changes left right : Changes} {offset : Nat}
    {path : Nibbles} (h : Placed s (node (p, i) ref pre kind ch) p i)
    (hcs : Sorted (rel offset changes)) (hd : ¬ pre <+: path.drop offset)
    (hsplit : changes = left ++ (path, none) :: right) :
    Ensures (if right.isEmpty then visit left offset p i
        else if left.isEmpty then visit right offset p i else throw .panic) s
      (Done .node s (node (p, i) ref pre kind ch) (rel offset changes))
      (OnSplit (Halted .node s (node (p, i) ref pre kind ch) p (rel offset changes))) := by
  subst hsplit
  have hrel : rel offset (left ++ (path, none) :: right) =
      rel offset left ++ (path.drop offset, none) :: rel offset right := by simp [rel]
  rw [hrel] at hcs ⊢
  split
  · next hr =>
    rw [List.isEmpty_iff.mp hr, rel_nil]
    refine (hv s _ left offset p i h (hcs.sublist (List.sublist_append_left _ _))).mono ?_ ?_
    · rintro change s' ⟨t', o, m, he, hstep⟩
      refine ⟨t', o, m, ?_, hstep⟩
      rw [h.flag_eq] at he ⊢
      exact .skipLast hd he
    · intro e s' hh n hn
      obtain ⟨s₁, t₁, m, fuel', he, hstep⟩ := hh n hn
      refine ⟨s₁, t₁, m, fuel', ?_, hstep⟩
      rw [h.flag_eq] at he ⊢
      exact .skipLast hd he
  · split
    · next hl =>
      rw [List.isEmpty_iff.mp hl] at hcs ⊢
      simp only [rel_nil, List.nil_append] at hcs ⊢
      refine (hv s _ right offset p i h (hcs.sublist (List.sublist_cons_self _ _))).mono ?_ ?_
      · rintro change s' ⟨t', o, m, he, hstep⟩
        refine ⟨t', o, m, ?_, hstep⟩
        rw [h.flag_eq] at he ⊢
        exact .skipFirst hd he
      · intro e s' hh n hn
        obtain ⟨s₁, t₁, m, fuel', he, hstep⟩ := hh n hn
        refine ⟨s₁, t₁, m, fuel', ?_, hstep⟩
        rw [h.flag_eq] at he ⊢
        exact .skipFirst hd he
    · exact throw_spec (by simp)

/-- A change that leaves the prefix of the node after `length` nibbles, where no change leaves it
before. -/
private theorem diverging_spec (hv : Visits visit) (fuel : Nat) {changes left right : Changes}
    {offset length : Nat} {path : Nibbles} {value : Option TrieValue}
    (h : Placed s (node (p, i) ref pre kind ch) p i) (hcs : Sorted (rel offset changes))
    (hsplit : changes = left ++ (path, value) :: right)
    (hlength : length = commonPrefixLength pre (path.drop offset)) (hl : length < pre.length)
    (hall : ∀ c ∈ rel offset changes, pre.take length <+: c.1) :
    Ensures (match value with
      | none =>
        if right.isEmpty then visit left offset p i
        else if left.isEmpty then visit right offset p i
        else throw .panic
      | some _ =>
        handleMissingParentBranch fuel visit changes offset p i
          (kind.node pre fun l ↦ (ch l).pointer?) (pre.take length)) s
      (Done .node s (node (p, i) ref pre kind ch) (rel offset changes))
      (OnSplit (Halted .node s (node (p, i) ref pre kind ch) p (rel offset changes))) := by
  cases value with
  | none =>
    refine skip_spec hv h hcs (fun hp ↦ ?_) hsplit
    rw [hlength, commonPrefixLength_eq_length.mpr hp] at hl
    exact Nat.lt_irrefl _ hl
  | some v =>
    have hmem : (path.drop offset, some v) ∈ rel offset changes := by
      rw [hsplit]
      simp [rel]
    refine handleMissingParentBranch_spec hv fuel h hcs hmem hl (hall _ hmem) ?_ hall
    rw [hlength] at hl ⊢
    exact not_take_succ_isPrefix _ _ hl

private theorem visitNode_spec (hv : Visits visit) (fuel : Nat) :
    Visits (visitNode fuel visit) := by
  intro s t changes offset p i h hcs
  cases changes with
  | nil => exact .pure ⟨t, .none, [], .nil, h.of_refl, rfl, rfl, rfl⟩
  | cons first others =>
  cases t with
  | empty => cases h.tag
  | node c ref pre kind ch =>
  have htag := h.tag
  cases htag
  refine .bind (getValue_spec fun n hn ↦ ?_)
  rw [h.cell hn]
  simp only [findShortestCommonPrefix, Kind.pre_node]
  generalize hlast_eq : others.getLastD first = last
  have hlast' :
      last.1.drop offset = ((rel offset others).getLastD (first.1.drop offset, first.2)).1 := by
    rw [getLastD_rel, hlast_eq]
  -- both ends agree with the prefix up to the shorter of the two common prefixes
  have hends (length : Nat) (hf : length ≤ commonPrefixLength pre (first.1.drop offset))
      (hl : length ≤ commonPrefixLength pre (last.1.drop offset)) :
      ∀ c ∈ rel offset (first :: others), pre.take length <+: c.1 := by
    intro c hc
    rw [take_isPrefix_iff (hf.trans (commonPrefixLength_le_left _ _))]
    refine hcs.le_commonPrefixLength hf ?_ hc
    rw [show List.map (fun c : Change ↦ (c.1.drop offset, c.2)) others = rel offset others from rfl]
    rwa [← hlast']
  by_cases hle : commonPrefixLength pre (first.1.drop offset) ≤
      commonPrefixLength pre (last.1.drop offset)
  · rw [if_pos hle]
    simp only [if_true]
    have htake := take_commonPrefixLength pre (first.1.drop offset)
    have hlen : ((first.1.drop offset).take
        (commonPrefixLength pre (first.1.drop offset))).length =
        commonPrefixLength pre (first.1.drop offset) := by
      rw [List.length_take]
      exact Nat.min_eq_left (commonPrefixLength_le_right _ _)
    rw [← htake] at hlen ⊢
    rw [hlen]
    split
    · next hlt =>
      exact diverging_spec hv fuel h hcs (show first :: others = [] ++ first :: others from rfl) rfl
        hlt (hends _ le_rfl hle)
    · next hge =>
      have hfull : commonPrefixLength pre (first.1.drop offset) = pre.length :=
        le_antisymm (commonPrefixLength_le_left _ _) (Nat.le_of_not_lt hge)
      have hfirst := commonPrefixLength_eq_length.mp hfull
      have hlast := commonPrefixLength_eq_length.mp
        (le_antisymm (commonPrefixLength_le_left _ _) (hfull ▸ hle))
      rw [hfull, List.take_length]
      split
      · next hpath =>
        have hpath : first.1.drop offset = pre := (hfirst.eq_of_length hpath).symm
        have hall := prefix_of_first_last hcs hfirst (by rwa [hlast_eq])
        rw [hpath]
        refine handleExactPrefixMatch_spec hv fuel h ?_ hcs hall
        rw [List.drop_one, List.tail_cons, ← hpath]
        rfl
      · next hpath =>
        obtain ⟨hunder, hne⟩ := under_of_first hcs hfirst (by rwa [hlast_eq]) fun he ↦
          hpath (by rw [he])
        rcases kind with (info | v) | _
        · exact handleAccountNodeTraversal_spec hv fuel h hunder (by simp) hne hcs
        · exact throw_spec (by simp)
        · have hsorted : Sorted (rel pre.length (rel offset (first :: others))) := by
            rw [hunder] at hcs
            exact Sorted.under_iff.mp hcs
          have hgroup := eq_regroup hsorted hne
          refine handleBranchNodeTraversal_spec hv fuel h (List.cons_ne_nil _ _) ?_ hsorted.group
          have hregroup :=
            under_regroup pre [] (group (rel pre.length (rel offset (first :: others))))
          rw [List.append_nil] at hregroup
          exact hunder.trans ((congrArg (under pre) hgroup).trans hregroup)
  · rw [if_neg hle]
    have hne : others ≠ [] := by
      rintro rfl
      rw [← hlast_eq] at hle
      exact hle le_rfl
    have hidx : (first :: others).length - 1 ≠ 0 := by
      simpa using hne
    simp only [if_neg hidx]
    have htake := take_commonPrefixLength pre (last.1.drop offset)
    have hlen : ((last.1.drop offset).take
        (commonPrefixLength pre (last.1.drop offset))).length =
        commonPrefixLength pre (last.1.drop offset) := by
      rw [List.length_take]
      exact Nat.min_eq_left (commonPrefixLength_le_right _ _)
    have hlt : commonPrefixLength pre (last.1.drop offset) < pre.length :=
      lt_of_lt_of_le (Nat.lt_of_not_le hle) (commonPrefixLength_le_left _ _)
    rw [← htake] at hlen ⊢
    rw [hlen, if_pos hlt]
    have hsub : (first :: others).length - 1 = others.length := by simp
    have hdrop : (first :: others).drop (others.length + 1) = [] :=
      List.drop_eq_nil_iff.mpr (by simp)
    have hsplit := dropLast_getLastD first others hne
    rw [hlast_eq] at hsplit
    rw [hsub, hdrop]
    exact diverging_spec hv fuel h hcs hsplit rfl hlt
      (hends _ (Nat.le_of_lt (Nat.lt_of_not_le hle)) le_rfl)

/-- `set_values_in_cloned_page` follows the recursion on tries. -/
theorem visits_setValuesInClonedPage (fuel : Nat) : Visits (setValuesInClonedPage fuel) := by
  induction fuel with
  | zero => exact fun _ _ _ _ _ _ _ _ ↦ throw_spec (by simp)
  | succ fuel ih => exact visitNode_spec ih fuel

end TrieDb.Layout
