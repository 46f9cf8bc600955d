import Mathlib.Data.List.ReduceOption

/-!
# Traces of a labelled transition system

The label sequences of executions, and forward simulation: when every step of one system is matched
by a step of another with the same label, every trace of the first is a trace of the second. Steps
with an internal label may be matched by none.
-/

namespace TrieDb.Base

variable {σ τ ℓ : Type*}

/-- The steps from `s` with the given labels lead to a state. -/
inductive Traced (step : σ → ℓ → σ → Prop) (s : σ) : List ℓ → σ → Prop
  | nil : Traced step s [] s
  | snoc {ls : List ℓ} {t u : σ} (l : ℓ) (trace : Traced step s ls t) (h : step t l u) :
      Traced step s (ls ++ [l]) u

/-- Whenever the labels so far lead to a state, the next one meets the condition there. -/
def Obeys (step : σ → ℓ → σ → Prop) (ok : σ → ℓ → Prop) (s : σ) (ls : List ℓ) : Prop :=
  ∀ before l after t, ls = before ++ l :: after → Traced step s before t → ok t l

/-- Steps from related states are matched, as long as the label meets the condition. -/
def Simulates (step : σ → ℓ → σ → Prop) (spec : τ → ℓ → τ → Prop) (ok : τ → ℓ → Prop)
    (R : σ → τ → Prop) : Prop :=
  ∀ s a l s', R s a → ok a l → step s l s' → ∃ a', spec a l a' ∧ R s' a'

section
variable {step : σ → ℓ → σ → Prop} {spec : τ → ℓ → τ → Prop} {ok : τ → ℓ → Prop}
  {R : σ → τ → Prop} {s t : σ} {a : τ} {ls : List ℓ}

/-- A rule that is obeyed is obeyed without the last label. -/
theorem Obeys.init {l : ℓ} (h : Obeys spec ok a (ls ++ [l])) : Obeys spec ok a ls := by
  rintro before k after b rfl hb
  exact h before k (after ++ [l]) b (by rw [List.append_assoc, List.cons_append]) hb

/-- The last label obeys the rule where it is read. -/
theorem Obeys.last {l : ℓ} {b : τ} (h : Obeys spec ok a (ls ++ [l])) (hb : Traced spec a ls b) :
    ok b l := h ls l [] b rfl hb

/-- Every trace of the first system is one of the second, in related states. -/
theorem Simulates.traced (h : Simulates step spec ok R) (hR : R s a) (ht : Traced step s ls t)
    (hok : Obeys spec ok a ls) : ∃ b, Traced spec a ls b ∧ R t b := by
  induction ht with
  | nil => exact ⟨a, .nil, hR⟩
  | snoc l _ hstep ih =>
    obtain ⟨b, hb, hRb⟩ := ih hok.init
    obtain ⟨b', hb', hR'⟩ := h _ _ _ _ hRb (hok.last hb) hstep
    exact ⟨b', .snoc l hb hb', hR'⟩

/-- One run after the other. -/
theorem Traced.append {u : σ} {ms : List ℓ} (h : Traced step s ls t) (h' : Traced step t ms u) :
    Traced step s (ls ++ ms) u := by
  induction h' with
  | nil => rwa [List.append_nil]
  | snoc l _ hl ih =>
    rw [← List.append_assoc]
    exact ih.snoc l hl

/-- The last step of a run. -/
theorem traced_append_singleton (ls : List ℓ) {l : ℓ} : Traced step s (ls ++ [l]) t ↔
    ∃ u, Traced step s ls u ∧ step u l t := by
  refine ⟨fun h ↦ ?_, fun ⟨u, hu, hl⟩ ↦ .snoc l hu hl⟩
  generalize hls : ls ++ [l] = all at h
  cases h with
  | nil => exact absurd hls (List.append_ne_nil_of_right_ne_nil _ (List.cons_ne_nil _ _))
  | snoc k hu hk =>
    obtain ⟨rfl, hkl⟩ := List.append_inj' hls rfl
    cases hkl
    exact ⟨_, hu, hk⟩

/-- The empty run stays where it is. -/
theorem traced_nil : Traced step s [] t ↔ t = s := by
  refine ⟨fun h ↦ ?_, fun h ↦ h ▸ .nil⟩
  generalize hls : [] = ls at h
  cases h with
  | nil => rfl
  | snoc l _ _ =>
    exact absurd hls.symm (List.append_ne_nil_of_right_ne_nil _ (List.cons_ne_nil _ _))

/-- No labels obey every rule. -/
theorem Obeys.nil : Obeys spec ok a [] := by
  intro before l after t h
  simp at h

/-- One more label obeys the rule if it does wherever the others lead. -/
theorem Obeys.snoc {l : ℓ} (h : Obeys spec ok a ls) (hl : ∀ b, Traced spec a ls b → ok b l) :
    Obeys spec ok a (ls ++ [l]) := by
  intro before k after t hls ht
  rcases List.eq_nil_or_concat after with rfl | ⟨after, k', rfl⟩
  · obtain ⟨rfl, hkl⟩ := List.append_inj' hls rfl
    cases hkl
    exact hl t ht
  · have hassoc : before ++ k :: after.concat k' = (before ++ k :: after) ++ [k'] := by simp
    rw [hassoc] at hls
    exact h before k after t (List.append_inj' hls rfl).1 ht

/-- More labels, which meet the condition everywhere. -/
theorem Obeys.append {ms : List ℓ} (h : Obeys spec ok a ls) (hms : ∀ l ∈ ms, ∀ b, ok b l) :
    Obeys spec ok a (ls ++ ms) := by
  induction ms generalizing ls with
  | nil => rwa [List.append_nil]
  | cons l ms ih =>
    rw [List.append_cons]
    exact ih (h.snoc fun b _ ↦ hms l List.mem_cons_self b) fun k hk ↦
      hms k (List.mem_cons_of_mem l hk)

/-! ### Internal steps -/

/-- The steps of a system that stays where it is when the label is internal. -/
def Stutters (step : σ → ℓ → σ → Prop) : σ → Option ℓ → σ → Prop
  | s, some l, t => step s l t
  | s, none, t => t = s

/-- The condition on the labels that are not internal. -/
def OnVisible (ok : σ → ℓ → Prop) : σ → Option ℓ → Prop
  | s, some l => ok s l
  | _, none => True

/-- Without its internal labels, a trace of the system that may stay is one of the system. -/
theorem Traced.visible {ls : List (Option ℓ)} (h : Traced (Stutters step) s ls t) :
    Traced step s ls.reduceOption t := by
  induction h with
  | nil => exact .nil
  | snoc l _ hl ih =>
    rw [List.reduceOption_append]
    cases l with
    | none =>
      cases hl
      simpa using ih
    | some k => exact .snoc k ih hl

/-- Labels that obey a rule do so with silent steps between them. -/
theorem Obeys.stutters {ls : List (Option ℓ)} (h : Obeys spec ok a ls.reduceOption) :
    Obeys (Stutters spec) (OnVisible ok) a ls := by
  rintro before l after t rfl ht
  cases l with
  | none => trivial
  | some k =>
    refine h before.reduceOption k after.reduceOption t ?_ ht.visible
    rw [List.reduceOption_append, List.reduceOption_cons_of_some]

end

end TrieDb.Base
