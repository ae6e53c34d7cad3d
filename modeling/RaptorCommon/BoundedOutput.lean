import RaptorCommon.TracedRun
import Mathlib.Data.List.Basic

/-!
# Writing into a buffer of fixed size

A writer keeps a running offset into its cells. A copy has no bound of its
own. A print is cut at the space left, terminator included, but moves the
offset by the length it would have had. A run of writes touches each write
with the offset it is made at.
-/

set_option autoImplicit false

namespace RaptorCommon.BoundedOutput
open RaptorCommon.TracedRun RaptorCommon.TracedRun.Run

variable {α : Type}

structure Output (α : Type) where
  cells : List α
  off : ℕ

inductive Write (α : Type) where
  | copy (text : List α) (start len : ℕ)
  | print (text : List α)

namespace Write

def bytes : Write α → List α
  | copy text start len => (text.drop start).take len
  | print text => text

/-- The cells it takes, a print's terminator among them. -/
def need : Write α → ℕ
  | copy _ _ len => len
  | print text => text.length+1

def Inside : Write α → Prop
  | copy text start len => start+len ≤ text.length
  | print _ => True

theorem need_bytes {w : Write α} (h : w.Inside) : w.need ≤ w.bytes.length+1 := by
  cases w with
  | copy text start len =>
    have hlen : ((text.drop start).take len).length = len := by
      rw [List.length_take, List.length_drop]
      exact Nat.min_eq_left (Nat.le_sub_of_add_le' h)
    simp only [bytes, need, hlen]
    omega
  | print text => exact Nat.le_refl _

end Write

structure Fits (cap : ℕ) (p : ℕ × Write α) : Prop where
  inside : p.2.Inside
  room : p.1+p.2.need ≤ cap

section Machine

def overwrite (cells : List α) (off : ℕ) (text : List α) : List α :=
  cells.take off ++ text ++ cells.drop (off+text.length)

/-- None where the behaviour is undefined: a copy past an end, or a print
whose space left is negative. -/
def store (nul : α) (w : Write α) (b : Output α) : Option (Output α) :=
  match w with
  | .copy text start len =>
    if start+len ≤ text.length ∧ b.off+len ≤ b.cells.length then
      some ⟨overwrite b.cells b.off ((text.drop start).take len), b.off+len⟩
    else none
  | .print text =>
    if b.off < b.cells.length then
      some ⟨overwrite b.cells b.off (text.take (b.cells.length-b.off-1) ++ [nul]),
        b.off+text.length⟩
    else if b.off = b.cells.length then some ⟨b.cells, b.off+text.length⟩
    else none

def write (nul : α) (w : Write α) (b : Output α) : Run (ℕ × Write α) (Output α) :=
  ⟨[(b.off, w)], store nul w b⟩

def writes (nul : α) : List (Write α) → Output α → Run (ℕ × Write α) (Output α)
  | [], b => pure b
  | w::ws, b => do
    let b ← write nul w b
    writes nul ws b

end Machine

section Overwriting

variable {cells a b z : List α} {off : ℕ}

theorem overwrite_length (h : off+a.length ≤ cells.length) :
    (overwrite cells off a).length = cells.length := by
  simp only [overwrite, List.length_append, List.length_take, List.length_drop]
  omega

theorem overwrite_overwrite (h : off+a.length+b.length ≤ cells.length) (hz : z.length ≤ b.length) :
    overwrite (overwrite cells off (a ++ z)) (off+a.length) b = overwrite cells off (a ++ b) := by
  have hfront : (cells.take off ++ a).length = off+a.length := by
    rw [List.length_append, List.length_take, Nat.min_eq_left (by omega)]
  have htail : overwrite cells off (a ++ z) =
      (cells.take off ++ a) ++ (z ++ cells.drop (off+(a.length+z.length))) := by
    simp only [overwrite, List.length_append, List.append_assoc]
  rw [htail, overwrite, List.take_left' hfront, ← List.drop_drop, List.drop_left' hfront,
    List.drop_append, List.drop_of_length_le hz, List.drop_drop]
  simp only [overwrite, List.append_assoc, List.nil_append, List.length_append]
  congr 4
  omega

theorem overwrite_drop {n : ℕ} (hn : n ≤ a.length) (h : off ≤ cells.length) :
    (overwrite cells off a).drop (off+n) = a.drop n ++ cells.drop (off+a.length) := by
  have hfront : (cells.take off).length = off := by
    rw [List.length_take, Nat.min_eq_left h]
  rw [overwrite, List.append_assoc, ← List.drop_drop, List.drop_left' hfront,
    List.drop_append_of_le_length hn]

end Overwriting

section Contents

structure Shows (cap : ℕ) (out : List α) (b : Output α) : Prop where
  size : b.cells.length = cap
  off : b.off = out.length
  text : b.cells.take out.length = out

variable {cap : ℕ} {nul : α} {out : List α} {b : Output α} {w : Write α} {ws : List (Write α)}

theorem shows_fresh (cells : List α) : Shows cells.length [] ⟨cells, 0⟩ := ⟨rfl, rfl, rfl⟩

theorem shows_cell (h : Shows cap out b) {i : ℕ} (hi : i < out.length) : b.cells[i]? = out[i]? := by
  conv_rhs => rw [← h.text]
  rw [List.getElem?_take_of_lt hi]

theorem shows_overwrite (h : Shows cap out b) (tail : List α)
    (hroom : out.length+w.bytes.length+tail.length ≤ cap) :
    Shows cap (out ++ w.bytes)
      ⟨overwrite b.cells b.off (w.bytes ++ tail), b.off+w.bytes.length⟩ := by
  have hcells : overwrite b.cells b.off (w.bytes ++ tail) =
      (out ++ w.bytes) ++ (tail ++ b.cells.drop (out.length+(w.bytes ++ tail).length)) := by
    rw [overwrite, h.off, h.text]
    simp only [List.append_assoc]
  constructor
  · have hsize := h.size
    rw [hcells]
    simp only [List.length_append, List.length_drop]
    omega
  · rw [List.length_append, ← h.off]
  · rw [hcells]
    exact List.take_left

theorem store_fits (h : Shows cap out b) (hin : w.Inside) (hroom : out.length+w.need ≤ cap) :
    ∃ b', store nul w b = some b' ∧ Shows cap (out ++ w.bytes) b' := by
  have hsize := h.size
  have hoff := h.off
  cases w with
  | copy text start len =>
    have hlen : ((text.drop start).take len).length = len := by
      rw [List.length_take, List.length_drop]
      exact Nat.min_eq_left (Nat.le_sub_of_add_le' hin)
    have hend : b.off+len ≤ b.cells.length := by
      rw [hsize, hoff]
      exact hroom
    have hover := shows_overwrite (w := .copy text start len) h []
      (by simpa only [Write.bytes, Write.need, hlen, List.length_nil, Nat.add_zero] using hroom)
    rw [List.append_nil] at hover
    simp only [Write.bytes, hlen] at hover
    exact ⟨_, if_pos ⟨hin, hend⟩, hover⟩
  | print text =>
    simp only [Write.need] at hroom
    have hall : text.take (b.cells.length-b.off-1) = text := List.take_of_length_le (by omega)
    have hover := shows_overwrite (w := .print text) h [nul]
      (by simp only [Write.bytes, List.length_singleton]; omega)
    rw [store, if_pos (by omega), hall]
    exact ⟨_, rfl, hover⟩

theorem write_fits (h : Shows cap out b) (hin : w.Inside) (hroom : out.length+w.need ≤ cap) :
    Meets (Fits cap) (Shows cap (out ++ w.bytes)) (write nul w b) := by
  refine ⟨fun e he => ?_, store_fits h hin hroom⟩
  rw [List.mem_singleton.mp he]
  exact ⟨hin, by rw [h.off]; exact hroom⟩

theorem writes_fit (h : Shows cap out b) (hin : ∀ w ∈ ws, w.Inside)
    (hroom : (out ++ ws.flatMap Write.bytes).length < cap) :
    Meets (Fits cap) (Shows cap (out ++ ws.flatMap Write.bytes)) (writes nul ws b) := by
  induction ws generalizing out b with
  | nil =>
    rw [writes, meets_pure, List.flatMap_nil, List.append_nil]
    exact h
  | cons w ws ih =>
    rw [List.flatMap_cons, ← List.append_assoc] at hroom ⊢
    have hlen := Write.need_bytes (hin w List.mem_cons_self)
    have hhere : out.length+w.need ≤ cap := by
      simp only [List.length_append] at hroom
      omega
    rw [writes, meets_bind]
    refine (write_fits h (hin w List.mem_cons_self) hhere).mono (fun _ he => he) fun b' hb' => ?_
    exact ih hb' (fun v hv => hin v (List.mem_cons_of_mem w hv)) hroom

end Contents

end RaptorCommon.BoundedOutput
