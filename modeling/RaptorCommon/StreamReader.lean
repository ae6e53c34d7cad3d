import Mathlib.Data.List.Basic
import Mathlib.Tactic.Common

/-!
# Readers of a stream

A reader moves along a stream of symbols, keeps a state and may stop with a
reason. It reads a text when in front of that text, whatever follows, it takes
just the text and gives one answer. What a composed reader reads is put
together from what its parts read.
-/

set_option autoImplicit false

namespace RaptorCommon.StreamReader

/-- Positions in a stream: what is still ahead, and the states a reader may be
run in. -/
structure Tape (σ β : Type*) where
  rest : σ → List β
  skip : ℕ → σ → σ
  Fit : σ → Prop
  rest_skip : ∀ n s, rest (skip n s) = (rest s).drop n
  skip_zero : ∀ s, skip 0 s = s
  skip_skip : ∀ m n s, skip n (skip m s) = skip (m+n) s
  fit_skip : ∀ n s, Fit s → n ≤ (rest s).length → Fit (skip n s)

variable {σ β ε α γ : Type}

abbrev Reader (σ ε α : Type) := StateT σ (Except ε) α

/-- In front of `xs` the reader takes `xs` and answers from where it is then. -/
def Yields (S : Tape σ β) (xs : List β) (a : σ → α) (p : Reader σ ε α) : Prop :=
  ∀ s tail, S.Fit s → S.rest s = xs ++ tail →
    p s = .ok (a (S.skip xs.length s), S.skip xs.length s)

/-- In front of `xs` the reader takes `xs` and answers `a`. -/
def Reads (S : Tape σ β) (xs : List β) (a : α) (p : Reader σ ε α) : Prop :=
  Yields S xs (fun _ => a) p

def Stops (S : Tape σ β) (xs : List β) (e : ε) (p : Reader σ ε α) : Prop :=
  ∀ s tail, S.Fit s → S.rest s = xs ++ tail → p s = .error e

def optionally (c : Bool) (p : Reader σ ε Unit) : Reader σ ε Unit := if c then p else pure ()

def loop (p : ℕ → Reader σ ε Unit) : ℕ → ℕ → Reader σ ε Unit
  | _, 0 => pure ()
  | i, n+1 => do
    p i
    loop p (i+1) n

section Rules

variable {S : Tape σ β} {xs ys : List β} {a : α} {b : γ} {e : ε} {p : Reader σ ε α}
  {f : α → Reader σ ε γ}

theorem reads_pure : Reads (ε := ε) S [] a (pure a) := by
  intro s tail _ _
  rw [List.length_nil, S.skip_zero]
  rfl

theorem rest_ahead {s : σ} {tail : List β} (h : S.rest s = xs ++ tail) :
    S.rest (S.skip xs.length s) = tail := by
  rw [S.rest_skip, h, List.drop_left]

theorem fit_ahead {s : σ} {tail : List β} (hs : S.Fit s) (h : S.rest s = xs ++ tail) :
    S.Fit (S.skip xs.length s) := by
  apply S.fit_skip _ s hs
  rw [h, List.length_append]
  omega

theorem yields_bind {c : σ → γ} (hp : Reads S xs a p) (hf : Yields S ys c (f a)) :
    Yields S (xs ++ ys) c (p >>= f) := by
  intro s tail hs h
  have h1 : S.rest s = xs ++ (ys ++ tail) := by rw [h, List.append_assoc]
  have hrun : (p >>= f) s = (p s).bind fun r => f r.1 r.2 := rfl
  rw [hrun, hp s _ hs h1]
  show f a (S.skip xs.length s) = _
  rw [hf _ tail (fit_ahead hs h1) (rest_ahead h1), S.skip_skip, List.length_append]

theorem reads_bind (hp : Reads S xs a p) (hf : Reads S ys b (f a)) :
    Reads S (xs ++ ys) b (p >>= f) := yields_bind hp hf

theorem stops_bind (hp : Reads S xs a p) (hf : Stops S ys e (f a)) :
    Stops S (xs ++ ys) e (p >>= f) := by
  intro s tail hs h
  have h1 : S.rest s = xs ++ (ys ++ tail) := by rw [h, List.append_assoc]
  have hrun : (p >>= f) s = (p s).bind fun r => f r.1 r.2 := rfl
  rw [hrun, hp s _ hs h1]
  exact hf _ tail (fit_ahead hs h1) (rest_ahead h1)

theorem reads_map {g : α → γ} (hp : Reads S xs a p) : Reads S xs (g a) (g <$> p) := by
  intro s tail hs h
  have hrun : (g <$> p) s = (p s).map fun r => (g r.1, r.2) := by
    show StateT.map g p s = _
    rw [StateT.map]
    cases p s <;> rfl
  rw [hrun, hp s tail hs h]
  rfl

theorem reads_then {q : Reader σ ε Unit} {r : Reader σ ε γ} (hp : Reads S xs () q)
    (hf : Reads S ys b r) : Reads S (xs ++ ys) b (do q; r) := reads_bind hp hf

theorem reads_optionally {c : Bool} {q : Reader σ ε Unit} (h : c = true → Reads S xs () q) :
    Reads S (if c then xs else []) () (optionally c q) := by
  unfold optionally
  cases c with
  | true => exact h rfl
  | false => exact reads_pure

theorem reads_loop {q : ℕ → Reader σ ε Unit} {text : ℕ → List β} (i n : ℕ)
    (h : ∀ j, i ≤ j → j < i+n → Reads S (text j) () (q j)) :
    Reads S ((List.range' i n).flatMap text) () (loop q i n) := by
  induction n generalizing i with
  | zero => exact reads_pure
  | succ n ih =>
    rw [List.range'_succ, List.flatMap_cons]
    apply reads_then (h i (by omega) (by omega))
    exact ih (i+1) fun j h1 h2 => h j (by omega) (by omega)

theorem reads_items {τ : Type} {q : Reader σ ε Unit} {text : τ → List β} (items : List τ) (i : ℕ)
    (h : ∀ x ∈ items, Reads S (text x) () q) :
    Reads S (items.flatMap text) () (loop (fun _ => q) i items.length) := by
  induction items generalizing i with
  | nil => exact reads_pure
  | cons x items ih =>
    rw [List.flatMap_cons]
    apply reads_then (h x (by simp))
    exact ih (i+1) fun y hy => h y (by simp [hy])

end Rules

section Invariants

def Keeps (I : σ → Prop) (p : Reader σ ε α) : Prop := ∀ s r, I s → p s = .ok r → I r.2

/-- A reader put together from steps of a given kind. -/
inductive Built (Step : ∀ α : Type, Reader σ ε α → Prop) : ∀ α : Type, Reader σ ε α → Prop
  | step {α : Type} {p : Reader σ ε α} (h : Step α p) : Built Step α p
  | pure {α : Type} (a : α) : Built Step α (pure a)
  | bind {α γ : Type} {p : Reader σ ε α} {f : α → Reader σ ε γ} (hp : Built Step α p)
      (hf : ∀ a, Built Step γ (f a)) : Built Step γ (p >>= f)

theorem bind_ok {p : Reader σ ε α} {f : α → Reader σ ε γ} {s : σ} {r : γ × σ}
    (h : (p >>= f) s = .ok r) : ∃ q, p s = .ok q ∧ f q.1 q.2 = .ok r := by
  have hrun : (p >>= f) s = (p s).bind fun r => f r.1 r.2 := rfl
  rw [hrun] at h
  cases hps : p s with
  | error e =>
    rw [hps] at h
    cases h
  | ok q =>
    rw [hps] at h
    exact ⟨q, rfl, h⟩

theorem bind_run {p : Reader σ ε α} {f : α → Reader σ ε γ} {s : σ} {q : α × σ}
    (h : p s = .ok q) : (p >>= f) s = f q.1 q.2 := by
  have hrun : (p >>= f) s = (p s).bind fun r => f r.1 r.2 := rfl
  rw [hrun, h]
  rfl

variable {Step : ∀ α : Type, Reader σ ε α → Prop}

/-- An invariant of every step is one of what is built of them. -/
theorem built_keeps {I : σ → Prop} {p : Reader σ ε α}
    (hstep : ∀ α (p : Reader σ ε α), Step α p → Keeps I p) (h : Built Step α p) : Keeps I p := by
  induction h with
  | step h => exact hstep _ _ h
  | pure a =>
    intro s r hs h
    cases h
    exact hs
  | bind hp hf ihp ihf =>
    intro s r hs h
    obtain ⟨q, hq, hr⟩ := bind_ok h
    exact ihf q.1 q.2 r (ihp s q hs hq) hr

section Rules

variable {p : Reader σ ε α} {q : Reader σ ε Unit}

theorem built_then {r : Reader σ ε γ} (hq : Built Step Unit q) (hr : Built Step γ r) :
    Built Step γ (do q; r) := .bind hq fun _ => hr

theorem built_map {g : α → γ} (hp : Built Step α p) : Built Step γ (g <$> p) := by
  rw [← bind_pure_comp]
  exact .bind hp fun a => .pure (g a)

theorem built_ite {c : Prop} [Decidable c] {r : Reader σ ε α} (hp : Built Step α p)
    (hr : Built Step α r) : Built Step α (if c then p else r) := by
  split
  · exact hp
  · exact hr

theorem built_optionally {c : Bool} (h : Built Step Unit q) : Built Step Unit (optionally c q) :=
  built_ite h (.pure ())

theorem built_loop {q : ℕ → Reader σ ε Unit} (h : ∀ i, Built Step Unit (q i)) (i n : ℕ) :
    Built Step Unit (loop q i n) := by
  induction n generalizing i with
  | zero => exact .pure ()
  | succ n ih => exact .bind (h i) fun _ => ih (i+1)

end Rules

end Invariants

end RaptorCommon.StreamReader
