import Mathlib

/-!
# Runs of a machine

A machine is a partial step function: `step s a` is the state after action `a`, or `none` when
`a` is not enabled in `s`.  `Machine.run` takes a list of actions one after the other.

What one step keeps a whole run keeps, and the induction is done once, in `run_induction`.  Often a
step keeps an invariant only where it is taken in a good state; `Along P` says of a run that every
action in it was taken where `P` holds, and `Along.induction` is the same induction for such runs.
When the property fails, `exists_of_not_along` finds the step to blame.

`trace` collects what the actions of a run put out, and `run_prefix_induction` is the induction for
statements about a state together with the actions that led to it.
-/

set_option autoImplicit false

namespace Machine

variable {σ α : Type*} {step : σ → α → Option σ}

/-- The state after the actions, taken one after the other; `none` as soon as one of them is not
enabled. -/
def run (step : σ → α → Option σ) : σ → List α → Option σ
  | s, [] => some s
  | s, a :: as => (step s a).bind fun s' ↦ run step s' as

@[simp] theorem run_nil (s : σ) : run step s [] = some s := rfl

theorem run_cons_eq_some {s t : σ} {a : α} {as : List α} :
    run step s (a :: as) = some t ↔ ∃ u, step s a = some u ∧ run step u as = some t := by
  rw [run, Option.bind_eq_some_iff]

theorem run_append_eq_some {s t : σ} {as bs : List α} :
    run step s (as ++ bs) = some t ↔ ∃ u, run step s as = some u ∧ run step u bs = some t := by
  induction as generalizing s with
  | nil => simp
  | cons a as ih =>
    rw [List.cons_append, run_cons_eq_some]
    simp only [run_cons_eq_some, ih]
    constructor
    · rintro ⟨u, ha, v, has, hbs⟩
      exact ⟨v, ⟨u, ha, has⟩, hbs⟩
    · rintro ⟨v, ⟨u, ha, has⟩, hbs⟩
      exact ⟨u, ha, v, has, hbs⟩

theorem run_singleton {s : σ} {a : α} : run step s [a] = step s a := by
  rw [run]
  cases step s a with
  | none => rfl
  | some u => rfl

/-! ## Runs whose steps are taken in good states -/

/-- Every action of the run from `s` is taken in a state where `P` allows it. -/
def Along (step : σ → α → Option σ) (P : σ → α → Prop) : σ → List α → Prop
  | _, [] => True
  | s, a :: as => P s a ∧
    match step s a with
    | none => True
    | some s' => Along step P s' as

/-- Whether a run is good throughout can be tested when one step can. -/
def Along.decide (step : σ → α → Option σ) (P : σ → α → Prop) [∀ s a, Decidable (P s a)] :
    ∀ (s : σ) (as : List α), Decidable (Along step P s as)
  | _, [] => inferInstanceAs (Decidable True)
  | s, a :: as =>
    have : Decidable (match step s a with
        | none => True
        | some s' => Along step P s' as) :=
      match step s a with
      | none => inferInstanceAs (Decidable True)
      | some s' => Along.decide step P s' as
    inferInstanceAs (Decidable (_ ∧ _))

instance (P : σ → α → Prop) [∀ s a, Decidable (P s a)] (s : σ) (as : List α) :
    Decidable (Along step P s as) :=
  Along.decide step P s as

variable {P : σ → α → Prop}

theorem along_cons {s u : σ} {a : α} {as : List α} (h : step s a = some u) :
    Along step P s (a :: as) ↔ P s a ∧ Along step P u as := by
  rw [Along, h]

/-- A condition on the actions alone holds along every run made of such actions. -/
theorem Along.of_forall {A : α → Prop} {s : σ} {as : List α} (h : ∀ a ∈ as, A a) :
    Along step (fun _ a ↦ A a) s as := by
  induction as generalizing s with
  | nil => trivial
  | cons a as ih =>
    refine ⟨h a List.mem_cons_self, ?_⟩
    split
    · trivial
    · exact ih fun b hb ↦ h b (List.mem_cons_of_mem a hb)

theorem Along.mono {Q : σ → α → Prop} (h : ∀ s a, P s a → Q s a) {s : σ} {as : List α}
    (hP : Along step P s as) : Along step Q s as := by
  induction as generalizing s with
  | nil => trivial
  | cons a as ih =>
    refine ⟨h s a hP.1, ?_⟩
    have hrest := hP.2
    split
    · trivial
    · rename_i s' hs
      rw [hs] at hrest
      exact ih hrest

theorem Along.and {Q : σ → α → Prop} {s : σ} {as : List α} (hP : Along step P s as)
    (hQ : Along step Q s as) : Along step (fun s a ↦ P s a ∧ Q s a) s as := by
  induction as generalizing s with
  | nil => trivial
  | cons a as ih =>
    refine ⟨⟨hP.1, hQ.1⟩, ?_⟩
    have hrestP := hP.2
    have hrestQ := hQ.2
    split
    · trivial
    · rename_i s' hs
      rw [hs] at hrestP hrestQ
      exact ih hrestP hrestQ

/-- Where an invariant allows every step, it is good along every run. -/
theorem Along.of_invariant {I : σ → Prop} {A : α → Prop}
    (hstep : ∀ s a s', I s → A a → step s a = some s' → I s') (hP : ∀ s a, I s → A a → P s a)
    {s : σ} {as : List α} (hI : I s) (hA : ∀ a ∈ as, A a) : Along step P s as := by
  induction as generalizing s with
  | nil => trivial
  | cons a as ih =>
    have ha := hA a List.mem_cons_self
    refine ⟨hP s a hI ha, ?_⟩
    split
    · trivial
    · rename_i s' hs
      exact ih (hstep s a s' hI ha hs) fun b hb ↦ hA b (List.mem_cons_of_mem a hb)

/-- **Induction along a good run.**  What every step keeps that is taken where `P` allows it, the
run keeps. -/
theorem Along.induction {I : σ → Prop} (hstep : ∀ s a s', I s → P s a → step s a = some s' → I s')
    {s t : σ} {as : List α} (hI : I s) (hP : Along step P s as) (hrun : run step s as = some t) :
    I t := by
  induction as generalizing s with
  | nil =>
    cases hrun
    exact hI
  | cons a as ih =>
    obtain ⟨u, ha, has⟩ := run_cons_eq_some.mp hrun
    rw [along_cons ha] at hP
    exact ih (hstep s a u hI hP.1 ha) hP.2 has

/-- What every step keeps, every run keeps. -/
theorem run_induction {I : σ → Prop} (hstep : ∀ s a s', I s → step s a = some s' → I s')
    {s t : σ} {as : List α} (hI : I s) (hrun : run step s as = some t) : I t :=
  Along.induction (P := fun _ _ ↦ True) (fun s a s' hs _ ↦ hstep s a s' hs) hI
    (Along.of_forall fun _ _ ↦ trivial) hrun

/-- A run that is not good throughout has a step that is to blame for it. -/
theorem exists_of_not_along {s t : σ} {as : List α} (hrun : run step s as = some t)
    (h : ¬ Along step P s as) :
    ∃ bs a cs u v, as = bs ++ a :: cs ∧ run step s bs = some u ∧ ¬ P u a ∧
      step u a = some v ∧ run step v cs = some t := by
  induction as generalizing s with
  | nil => exact absurd trivial h
  | cons a as ih =>
    obtain ⟨u, ha, has⟩ := run_cons_eq_some.mp hrun
    rw [along_cons ha, not_and_or] at h
    rcases h with h | h
    · exact ⟨[], a, as, s, u, rfl, rfl, h, ha, has⟩
    · obtain ⟨bs, b, cs, v, w, rfl, hbs, hb, hvw, hcs⟩ := ih has h
      exact ⟨a :: bs, b, cs, v, w, rfl, run_cons_eq_some.mpr ⟨u, ha, hbs⟩, hb, hvw, hcs⟩

/-! ## What a run puts out -/

variable {β : Type*} {out : σ → α → List β}

/-- What the actions of a run put out, one after the other. -/
def trace (step : σ → α → Option σ) (out : σ → α → List β) : σ → List α → List β
  | _, [] => []
  | s, a :: as => out s a ++ ((step s a).map fun s' ↦ trace step out s' as).getD []

theorem trace_cons {s u : σ} {a : α} {as : List α} (h : step s a = some u) :
    trace step out s (a :: as) = out s a ++ trace step out u as := by
  rw [trace, h]
  rfl

/-- What one more action puts out comes last. -/
theorem trace_concat {s t u : σ} {a : α} {as : List α} (hrun : run step s as = some t)
    (h : step t a = some u) : trace step out s (as ++ [a]) = trace step out s as ++ out t a := by
  induction as generalizing s with
  | nil =>
    cases hrun
    rw [List.nil_append, trace_cons h]
    simp [trace]
  | cons b bs ih =>
    obtain ⟨v, hb, hbs⟩ := run_cons_eq_some.mp hrun
    rw [List.cons_append, trace_cons hb, trace_cons hb, ih hbs, List.append_assoc]

/-- **Induction on the actions taken so far.** -/
theorem run_prefix_induction {I : List α → σ → Prop} {s₀ : σ}
    (hstep : ∀ as s a s', run step s₀ as = some s → I as s → step s a = some s' → I (as ++ [a]) s')
    (h₀ : I [] s₀) {as : List α} {t : σ} (hrun : run step s₀ as = some t) : I as t := by
  induction as using List.reverseRecOn generalizing t with
  | nil =>
    cases hrun
    exact h₀
  | append_singleton as a ih =>
    obtain ⟨u, has, ha⟩ := run_append_eq_some.mp hrun
    rw [run_singleton] at ha
    exact hstep as u a t has (ih has) ha

/-! ## Rounds that wear something down -/

/-- Rounds that each wear a measure down unless they stop, come to a first stop. -/
theorem exists_first_stop {stop : ℕ → Prop} {m : ℕ → ℕ}
    (h : ∀ k, ¬ stop k → m (k + 1) < m k) : ∃ k ≤ m 0, stop k ∧ ∀ j < k, ¬ stop j := by
  classical
  have hworn : ∀ n, (∀ j < n, ¬ stop j) → m n + n ≤ m 0 := by
    intro n
    induction n with
    | zero => simp
    | succ n ih =>
      intro hgo
      have hn := ih fun j hj ↦ hgo j (hj.trans n.lt_succ_self)
      have hstep := h n (hgo n n.lt_succ_self)
      omega
  have hstops : ∃ k, stop k := by
    by_contra hnever
    rw [not_exists] at hnever
    have := hworn (m 0 + 1) fun j _ ↦ hnever j
    omega
  have hbefore : ∀ j < Nat.find hstops, ¬ stop j := fun j hj ↦ Nat.find_min hstops hj
  refine ⟨Nat.find hstops, ?_, Nat.find_spec hstops, hbefore⟩
  have := hworn _ hbefore
  omega

/-! ## Machines side by side -/

variable {π : Type*}

/-- A count summed over the processes of a system. -/
def tally (f : π → ℕ) (l : List π) : ℕ := (l.map f).sum

theorem tally_append (f : π → ℕ) (l m : List π) : tally f (l ++ m) = tally f l + tally f m := by
  rw [tally, List.map_append, List.sum_append, tally, tally]

@[simp] theorem tally_singleton (f : π → ℕ) (p : π) : tally f [p] = f p := by
  simp [tally]

/-- When one process changes, its count is all that changes in the sum. -/
theorem tally_set (f : π → ℕ) {l : List π} {i : ℕ} {p : π} (h : l[i]? = some p) (p' : π) :
    tally f (l.set i p') + f p = tally f l + f p' := by
  induction l generalizing i with
  | nil => simp at h
  | cons q l ih =>
    cases i with
    | zero =>
      simp only [List.getElem?_cons_zero, Option.some.injEq] at h
      subst h
      simp only [tally, List.set_cons_zero, List.map_cons, List.sum_cons]
      omega
    | succ i =>
      have := ih (i := i) (by simpa using h)
      simp only [tally, List.set_cons_succ, List.map_cons, List.sum_cons] at this ⊢
      omega

theorem le_tally_of_mem (f : π → ℕ) {l : List π} {p : π} (h : p ∈ l) : f p ≤ tally f l :=
  List.single_le_sum (by simp) _ (List.mem_map_of_mem h)

theorem tally_eq_zero_iff {f : π → ℕ} {l : List π} : tally f l = 0 ↔ ∀ p ∈ l, f p = 0 := by
  simp [tally, List.sum_eq_zero_iff]

/-- Everyone after a change was there before, or is the one who changed. -/
theorem mem_of_mem_set {l : List π} {i : ℕ} {p' q : π} (h : q ∈ l.set i p') : q ∈ l ∨ q = p' :=
  List.mem_or_eq_of_mem_set h

end Machine
