import RaptorCommon.StreamReader

/-!
# Readers that note what they do

A traced reader keeps a log of its operations next to its run. It traces a
reader when it runs as that reader does and all it notes from the states of an
invariant has a property. What traces a composed reader is put together from
what traces its parts.
-/

set_option autoImplicit false

namespace RaptorCommon.TracedReader
open RaptorCommon.StreamReader

variable {σ ε τ α γ : Type}

structure Traced (σ ε τ α : Type) where
  run : Reader σ ε α
  log : σ → List τ

instance : Monad (Traced σ ε τ) where
  pure a := ⟨pure a, fun _ => []⟩
  bind t f :=
    { run := t.run >>= fun a => (f a).run
      log := fun s => t.log s ++ match t.run s with
        | .ok r => (f r.1).log r.2
        | .error _ => [] }

def note (ops : σ → List τ) : Traced σ ε τ Unit := ⟨pure (), ops⟩

def unnoted (p : Reader σ ε α) : Traced σ ε τ α := ⟨p, fun _ => []⟩

def tracedOptionally (c : Bool) (t : Traced σ ε τ Unit) : Traced σ ε τ Unit :=
  if c then t else pure ()

def tracedLoop (t : ℕ → Traced σ ε τ Unit) : ℕ → ℕ → Traced σ ε τ Unit
  | _, 0 => pure ()
  | i, n+1 => do
    t i
    tracedLoop t (i+1) n

structure Traces (P : τ → Prop) (I : σ → Prop) (t : Traced σ ε τ α) (p : Reader σ ε α) : Prop where
  run : t.run = p
  log : ∀ s, I s → ∀ op ∈ t.log s, P op
  keeps : Keeps I p

section Rules

variable {P : τ → Prop} {I : σ → Prop} {t : Traced σ ε τ α} {p : Reader σ ε α}
  {f : α → Traced σ ε τ γ} {g : α → Reader σ ε γ}

theorem traces_pure (a : α) : Traces (ε := ε) P I (pure a) (pure a) where
  run := rfl
  log _ _ _ h := absurd h List.not_mem_nil
  keeps s r hs h := by
    cases h
    exact hs

theorem traces_unnoted (h : Keeps I p) : Traces P I (unnoted p) p where
  run := rfl
  log _ _ _ h := absurd h List.not_mem_nil
  keeps := h

theorem Traces.mono {P' : τ → Prop} (h : Traces P I t p) (hP : ∀ op, P op → P' op) :
    Traces P' I t p := ⟨h.run, fun s hs op hop => hP op (h.log s hs op hop), h.keeps⟩

theorem traces_bind_of {Q : α → Prop} (hQ : ∀ s r, I s → p s = .ok r → Q r.1)
    (ht : Traces P I t p) (hrun : ∀ a, (f a).run = g a) (hf : ∀ a, Q a → Traces P I (f a) (g a)) :
    Traces P I (t >>= f) (p >>= g) where
  run := by
    show (t.run >>= fun a => (f a).run) = _
    rw [ht.run, funext hrun]
  log s hs op hop := by
    rcases List.mem_append.mp hop with h | h
    · exact ht.log s hs op h
    · rw [ht.run] at h
      cases hfirst : p s with
      | error e =>
        rw [hfirst] at h
        exact absurd h List.not_mem_nil
      | ok r =>
        rw [hfirst] at h
        exact (hf r.1 (hQ s r hs hfirst)).log r.2 (ht.keeps s r hs hfirst) op h
  keeps s r hs h := by
    obtain ⟨q, hq, hr⟩ := bind_ok h
    exact (hf q.1 (hQ s q hs hq)).keeps q.2 r (ht.keeps s q hs hq) hr

theorem traces_bind (ht : Traces P I t p) (hf : ∀ a, Traces P I (f a) (g a)) :
    Traces P I (t >>= f) (p >>= g) :=
  traces_bind_of (Q := fun _ => True) (fun _ _ _ _ => trivial) ht (fun a => (hf a).run)
    fun a _ => hf a

theorem traces_then {u : Traced σ ε τ Unit} {q : Reader σ ε Unit} (hu : Traces P I u q)
    (ht : Traces P I t p) : Traces P I (do u; t) (do q; p) := traces_bind hu fun _ => ht

theorem traces_map {g : α → γ} (ht : Traces P I t p) : Traces P I (g <$> t) (g <$> p) := by
  show Traces P I (t >>= fun a => pure (g a)) (g <$> p)
  rw [← bind_pure_comp]
  exact traces_bind ht fun a => traces_pure (g a)

theorem traces_note {ops : σ → List τ} (hops : ∀ s, I s → ∀ op ∈ ops s, P op)
    (ht : Traces P I t p) : Traces P I (do note ops; t) p where
  run := ht.run
  log s hs op hop := (List.mem_append.mp hop).elim (hops s hs op) (ht.log s hs op)
  keeps := ht.keeps

theorem traces_ite {c : Prop} [Decidable c] {t' : Traced σ ε τ α} {p' : Reader σ ε α}
    (ht : c → Traces P I t p) (ht' : ¬c → Traces P I t' p') :
    Traces P I (if c then t else t') (if c then p else p') := by
  split
  · exact ht ‹_›
  · exact ht' ‹_›

theorem traces_optionally {c : Bool} {u : Traced σ ε τ Unit} {q : Reader σ ε Unit}
    (hu : Traces P I u q) : Traces P I (tracedOptionally c u) (optionally c q) :=
  traces_ite (fun _ => hu) fun _ => traces_pure ()

theorem traces_loop {u : ℕ → Traced σ ε τ Unit} {q : ℕ → Reader σ ε Unit}
    (hu : ∀ i, Traces P I (u i) (q i)) (i n : ℕ) :
    Traces P I (tracedLoop u i n) (loop q i n) := by
  induction n generalizing i with
  | zero => exact traces_pure ()
  | succ n ih => exact traces_then (hu i) (ih (i+1))

end Rules

end RaptorCommon.TracedReader
