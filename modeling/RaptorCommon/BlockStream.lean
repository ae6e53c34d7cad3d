import Mathlib.Data.List.Basic

/-!
# A chaining function over the whole blocks of a stream

A stream is cut into blocks of one width, and a state is carried through them.
What the state is after a stream is what it was, carried through what was added.
-/

set_option autoImplicit false

namespace RaptorCommon.BlockStream

variable {α σ : Type*}

def blocks (width : ℕ) : ℕ → List α → List (List α)
  | 0, _ => []
  | n+1, xs => xs.take width :: blocks width n (xs.drop width)

def chain (width : ℕ) (f : σ → List α → σ) (s : σ) (xs : List α) : σ :=
  (blocks width (xs.length/width) xs).foldl f s

variable {width : ℕ} (f : σ → List α → σ) (s : σ)

theorem blocks_add (n k : ℕ) (xs ys : List α) (hx : xs.length = width*n) :
    blocks width (n+k) (xs ++ ys) = blocks width n xs ++ blocks width k ys := by
  induction n generalizing xs with
  | zero =>
    have hnil : xs = [] := List.length_eq_zero_iff.mp (by simpa using hx)
    rw [hnil, Nat.zero_add]
    rfl
  | succ n ih =>
    have hle : width ≤ xs.length := by rw [hx, Nat.mul_succ]; omega
    rw [Nat.add_right_comm, blocks, blocks, List.take_append_of_le_length hle,
      List.drop_append_of_le_length hle, List.cons_append]
    exact congrArg _ (ih (xs.drop width) (by rw [List.length_drop, hx, Nat.mul_succ]; omega))

@[simp] theorem chain_nil : chain width f s [] = s := by
  simp [chain, blocks]

/-- Streams of whole blocks are carried one after the other. -/
theorem chain_append (hw : 0 < width) (xs ys : List α) (hx : width ∣ xs.length) :
    chain width f s (xs ++ ys) = chain width f (chain width f s xs) ys := by
  obtain ⟨n, hn⟩ := hx
  have hcount : (xs ++ ys).length/width = n + ys.length/width := by
    rw [List.length_append, hn, Nat.add_comm, Nat.add_mul_div_left _ _ hw, Nat.add_comm]
  have hfront : xs.length/width = n := by rw [hn, Nat.mul_div_cancel_left _ hw]
  rw [chain, chain, chain, hcount, hfront, blocks_add n _ xs ys hn, List.foldl_append]

theorem chain_block (hw : 0 < width) (xs : List α) (hx : xs.length = width) :
    chain width f s xs = f s xs := by
  rw [chain, hx, Nat.div_self hw, blocks, ← hx, List.take_length]
  rfl

theorem chain_snoc (hw : 0 < width) (xs b : List α) (hx : width ∣ xs.length)
    (hb : b.length = width) :
    chain width f s (xs ++ b) = f (chain width f s xs) b := by
  rw [chain_append f s hw xs b hx, chain_block f _ hw b hb]

end RaptorCommon.BlockStream
