import Mathlib.Data.List.Basic
import Mathlib.Logic.Relation

/-! Computations that may stop: an assertion that fails throws, and a loop that runs for a number of
rounds may be unfinished after them.  The rules here take a computation that returned apart into
the computations it is made of. -/

namespace Nestchain.Lib

/-- Why a computation returned nothing. -/
inductive Failure where
  | thrown
  | unfinished
deriving DecidableEq

abbrev Attempt := Except Failure

/-- An assertion. -/
def require (p : Prop) [Decidable p] : Attempt Unit :=
  if p then .ok () else .error .thrown

/-- A lookup whose failure throws. -/
def demand {α : Type} : Option α → Attempt α
  | some a => .ok a
  | none => .error .thrown

section

variable {α β : Type}

@[simp] theorem bind_eq_ok {x : Attempt α} {f : α → Attempt β} {b : β} :
    (x >>= f) = .ok b ↔ ∃ a, x = .ok a ∧ f a = .ok b := by
  cases x with
  | error e => simp [bind, Except.bind]
  | ok a => simp [bind, Except.bind]

@[simp] theorem pure_eq_ok {a b : α} : (pure a : Attempt α) = .ok b ↔ b = a :=
  ⟨fun h => (Except.ok.inj h).symm, fun h => congrArg Except.ok h.symm⟩

@[simp] theorem require_eq_ok {p : Prop} [Decidable p] {u : Unit} : require p = .ok u ↔ p := by
  unfold require
  split <;> simp_all

@[simp] theorem demand_eq_ok {x : Option α} {a : α} : demand x = .ok a ↔ x = some a := by
  cases x <;> simp [demand]

/-- A test of the result of a computation. -/
theorem exists_ok_of_any {x : Attempt α} {p : α → Bool} (h : x.toOption.any p = true) :
    ∃ a, x = .ok a ∧ p a = true := by
  cases x with
  | error e => cases h
  | ok a => exact ⟨a, rfl, h⟩

end

/-! ### Loops -/

section

variable {σ ρ α : Type}

/-- Repeat `body`, which goes on from a state (`inl`) or ends the loop with a result (`inr`), for at
most so many rounds. -/
def loop (body : σ → Attempt (σ ⊕ ρ)) : Nat → σ → Attempt ρ
  | 0, _ => .error .unfinished
  | n + 1, s => do
    match ← body s with
    | .inl s' => loop body n s'
    | .inr r => pure r

/-- The first round either ends the loop or is followed by the others. -/
theorem loop_succ_eq_ok {body : σ → Attempt (σ ⊕ ρ)} {n : Nat} {s : σ} {r : ρ} :
    loop body (n + 1) s = .ok r ↔
      (∃ s', body s = .ok (.inl s') ∧ loop body n s' = .ok r) ∨ body s = .ok (.inr r) := by
  simp only [loop, bind_eq_ok]
  constructor
  · rintro ⟨x, hx, h⟩
    cases x with
    | inl s' => exact Or.inl ⟨s', hx, h⟩
    | inr r' =>
      obtain rfl := pure_eq_ok.mp h
      exact Or.inr hx
  · rintro (⟨s', hx, h⟩ | hx)
    · exact ⟨.inl s', hx, h⟩
    · exact ⟨.inr r, hx, rfl⟩

/-- What each round keeps holds at the end of a loop. -/
theorem loop_invariant {body : σ → Attempt (σ ⊕ ρ)} {P : σ → Prop} {Q : ρ → Prop}
    (hnext : ∀ s s', P s → body s = .ok (.inl s') → P s')
    (hdone : ∀ s r, P s → body s = .ok (.inr r) → Q r) :
    ∀ (n : Nat) (s : σ) (r : ρ), P s → loop body n s = .ok r → Q r
  | 0, s, r, _, h => by simp [loop] at h
  | n + 1, s, r, hs, h => by
    simp only [loop, bind_eq_ok] at h
    obtain ⟨x, hx, h⟩ := h
    cases x with
    | inl s' => exact loop_invariant hnext hdone n s' r (hnext s s' hs hx) h
    | inr r' =>
      obtain rfl := pure_eq_ok.mp h
      exact hdone s r hs hx

/-- A run over a list: what each step gives for the rest of the list holds at its end. -/
theorem foldlM_induction {f : σ → α → Attempt σ} {P : List α → σ → Prop}
    (hstep : ∀ a l s s', P (a :: l) s → f s a = .ok s' → P l s') :
    ∀ (l : List α) (s s' : σ), P l s → l.foldlM f s = .ok s' → P [] s'
  | [], s, s', hs, h => by
    rw [List.foldlM_nil, pure_eq_ok] at h
    exact h ▸ hs
  | a :: l, s, s', hs, h => by
    rw [List.foldlM_cons, bind_eq_ok] at h
    obtain ⟨s1, h1, h⟩ := h
    exact foldlM_induction hstep l s1 s' (hstep a l s s1 hs h1) h

/-- A run over a list in which every step returns. -/
theorem foldlM_total {f : σ → α → Attempt σ} {P : List α → σ → Prop}
    (hstep : ∀ a l s, P (a :: l) s → ∃ s', f s a = .ok s' ∧ P l s') :
    ∀ (l : List α) (s : σ), P l s → ∃ s', l.foldlM f s = .ok s' ∧ P [] s'
  | [], s, hs => ⟨s, rfl, hs⟩
  | a :: l, s, hs => by
    obtain ⟨s1, h1, hs1⟩ := hstep a l s hs
    obtain ⟨s', h', hs'⟩ := foldlM_total hstep l s1 hs1
    exact ⟨s', by rw [List.foldlM_cons, h1]; exact h', hs'⟩

/-- What each step keeps holds at the end of a run over a list. -/
theorem foldlM_invariant {f : σ → α → Attempt σ} {P : σ → Prop}
    (hstep : ∀ s a s', P s → f s a = .ok s' → P s') (l : List α) (s s' : σ) (hs : P s)
    (h : l.foldlM f s = .ok s') : P s' :=
  foldlM_induction (P := fun _ => P) (fun a _ s s' => hstep s a s') l s s' hs h

end

/-! ### Computations that do not run out of rounds -/

/-- The computation returns or throws. -/
def Finishes {α : Type} (x : Attempt α) : Prop := x ≠ .error .unfinished

section

variable {σ ρ α β : Type}

@[simp] theorem finishes_ok (a : α) : Finishes (.ok a : Attempt α) := nofun

@[simp] theorem finishes_pure (a : α) : Finishes (pure a : Attempt α) := nofun

@[simp] theorem finishes_thrown : Finishes (.error .thrown : Attempt α) := nofun

@[simp] theorem finishes_require (p : Prop) [Decidable p] : Finishes (require p) := by
  unfold require
  split <;> simp

@[simp] theorem finishes_demand (x : Option α) : Finishes (demand x) := by
  cases x <;> simp [demand]

@[simp] theorem finishes_bind {x : Attempt α} {f : α → Attempt β} :
    Finishes (x >>= f) ↔ Finishes x ∧ ∀ a, x = .ok a → Finishes (f a) := by
  cases x with
  | error e => simp [Finishes, bind, Except.bind]
  | ok a => simp [Finishes, bind, Except.bind]

@[simp] theorem finishes_map {x : Attempt α} {f : α → β} : Finishes (f <$> x) ↔ Finishes x := by
  cases x with
  | error e => simp [Finishes, Functor.map, Except.map]
  | ok a => simp [Finishes, Functor.map, Except.map]

@[simp] theorem finishes_ite {p : Prop} [Decidable p] {x y : Attempt α} :
    Finishes (if p then x else y) ↔ (p → Finishes x) ∧ (¬p → Finishes y) := by
  split <;> simp_all

/-- A loop whose rounds finish and take a measure down finishes, with more rounds than the
measure. -/
theorem loop_finishes {body : σ → Attempt (σ ⊕ ρ)} {P : σ → Prop} {m : σ → Nat}
    (hbody : ∀ s, P s → Finishes (body s))
    (hnext : ∀ s s', P s → body s = .ok (.inl s') → P s' ∧ m s' < m s) :
    ∀ (n : Nat) (s : σ), P s → m s < n → Finishes (loop body n s)
  | 0, _, _, hn => absurd hn (Nat.not_lt_zero _)
  | n + 1, s, hs, hn => by
    simp only [loop, finishes_bind]
    refine ⟨hbody s hs, fun r hr => ?_⟩
    cases r with
    | inl s' =>
      obtain ⟨hs', hlt⟩ := hnext s s' hs hr
      exact loop_finishes hbody hnext n s' hs' (by omega)
    | inr r => exact finishes_pure r

/-- A loop whose rounds return and take a measure down returns, with more rounds than the
measure. -/
theorem loop_total {body : σ → Attempt (σ ⊕ ρ)} {P : σ → Prop} {m : σ → Nat}
    (hbody : ∀ s, P s → ∃ r, body s = .ok r)
    (hnext : ∀ s s', P s → body s = .ok (.inl s') → P s' ∧ m s' < m s) :
    ∀ (n : Nat) (s : σ), P s → m s < n → ∃ r, loop body n s = .ok r
  | 0, _, _, hn => absurd hn (Nat.not_lt_zero _)
  | n + 1, s, hs, hn => by
    obtain ⟨r, hr⟩ := hbody s hs
    simp only [loop, hr]
    cases r with
    | inl s' =>
      obtain ⟨hs', hlt⟩ := hnext s s' hs hr
      exact loop_total hbody hnext n s' hs' (by omega)
    | inr r => exact ⟨r, rfl⟩

/-- The states that a loop goes through from a state on. -/
def Passes (body : σ → Attempt (σ ⊕ ρ)) : σ → σ → Prop :=
  Relation.ReflTransGen fun s s' => body s = .ok (.inl s')

/-- What each round keeps holds in every state that a loop goes through. -/
theorem Passes.invariant {body : σ → Attempt (σ ⊕ ρ)} {P : σ → Prop} {s s' : σ}
    (h : Passes body s s') (hs : P s) (hnext : ∀ s s', P s → body s = .ok (.inl s') → P s') :
      P s' := by
  induction h with
  | refl => exact hs
  | tail _ hstep ih => exact hnext _ _ ih hstep

/-- A loop that comes back to the state it is in never finishes. -/
theorem loop_unfinished {body : σ → Attempt (σ ⊕ ρ)} {s : σ} (h : body s = .ok (.inl s)) :
    ∀ n : Nat, loop body n s = .error .unfinished
  | 0 => rfl
  | n + 1 => by
    simp only [loop, h]
    exact loop_unfinished h n

theorem foldlM_finishes {f : σ → α → Attempt σ} (hf : ∀ s a, Finishes (f s a)) (l : List α)
    (s : σ) : Finishes (l.foldlM f s) := by
  induction l generalizing s with
  | nil => exact finishes_pure s
  | cons a l ih =>
    rw [List.foldlM_cons, finishes_bind]
    exact ⟨hf s a, fun s' _ => ih s'⟩

end

/-! ### More rounds -/

/-- What `x` returns, `y` returns too. -/
def Within {α : Type} (x y : Attempt α) : Prop := ∀ a, x = .ok a → y = .ok a

namespace Within

variable {σ ρ α β : Type} {x y : Attempt α}

theorem refl (x : Attempt α) : Within x x := fun _ h => h

theorem bind {f g : α → Attempt β} (h : Within x y) (hf : ∀ a, Within (f a) (g a)) :
    Within (x >>= f) (y >>= g) := by
  intro b hb
  obtain ⟨a, ha, hb⟩ := bind_eq_ok.mp hb
  exact bind_eq_ok.mpr ⟨a, h a ha, hf a b hb⟩

theorem ite {p : Prop} [Decidable p] {x' y' : Attempt α} (h : Within x y) (h' : Within x' y') :
    Within (if p then x else x') (if p then y else y') := by
  split
  · exact h
  · exact h'

/-- A loop that returns does so with more rounds too. -/
theorem loop {body body' : σ → Attempt (σ ⊕ ρ)} (h : ∀ s, Within (body s) (body' s)) :
    ∀ {n m : Nat} (s : σ), n ≤ m → Within (Lib.loop body n s) (Lib.loop body' m s)
  | 0, _, _, _ => fun _ hr => nomatch hr
  | n + 1, 0, _, hle => absurd hle (Nat.not_succ_le_zero n)
  | n + 1, m + 1, s, hle => by
    refine bind (h s) fun r => ?_
    cases r with
    | inl s' => exact loop h s' (Nat.le_of_succ_le_succ hle)
    | inr r => exact refl _

end Within

end Nestchain.Lib
