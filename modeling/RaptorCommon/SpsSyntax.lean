import RaptorCommon.VuiWalk

/-!
# The syntax of an SPS

Elements of fixed width, Exp-Golomb elements and optional parts, in the form
they have in a bitstream, and the part that both codecs share: the VUI up to
video_full_range_flag. The walks read each of them as it is written.
-/

set_option autoImplicit false

namespace RaptorCommon.SpsSyntax
open RaptorCommon.CText RaptorCommon.BitString RaptorCommon.ExpGolomb RaptorCommon.StreamReader
open RaptorCommon.VuiReader RaptorCommon.VuiWalk

section Elements

/-- A value whose code has no more than 31 zeros in front. -/
abbrev Ue := {k : ℕ // k < 2^32-1}

abbrev Se := {v : ℤ // -2^31 < v ∧ v < 2^31}

def u {n : ℕ} (v : BitVec n) : List Bool := digits n v.toNat

def ue (k : Ue) : List Bool := ueBits k.1

def se (v : Se) : List Bool := seBits v.1

def zeroUe : Ue := ⟨0, by decide⟩

def oneUe : Ue := ⟨1, by decide⟩

def present {α : Type} (o : Option α) (bits : α → List Bool) : List Bool :=
  match o with
  | none => [false]
  | some a => true::bits a

@[simp] theorem u_length {n : ℕ} (v : BitVec n) : (u v).length = n := digits_length n _

theorem se_number_lt (v : Se) : seNumber v.1 < 2^32-1 := by
  obtain ⟨v, hlow, hhigh⟩ := v
  show seNumber v < 2^32-1
  unfold seNumber
  split <;> omega

theorem reads_u {n : ℕ} (v : BitVec n) : Reads stream (u v) (UInt32.ofNat v.toNat) (vbRead n) := by
  have hread := reads_read (u v)
  rwa [u_length, u, value_of_digits v.isLt] at hread

theorem reads_skip_u {n : ℕ} (v : BitVec n) : Reads stream (u v) () (skipBits n) :=
  reads_skip (u_length v)

theorem reads_skip_flag (x : Bool) : Reads stream [x] () (skipBits 1) := reads_skip rfl

variable (shift32 : UInt32)

theorem reads_ue_value (k : Ue) : Reads stream (ue k) (UInt32.ofNat k.1) (vbUe shift32) :=
  reads_ue shift32 k.2

theorem reads_ue_skipped (k : Ue) : Reads stream (ue k) () (skipUe shift32) :=
  reads_skip_ue shift32 k.2

theorem reads_se_skipped (v : Se) : Reads stream (se v) () (skipSe shift32) :=
  reads_skip_se shift32 (se_number_lt v)

theorem uint_eq {k m : ℕ} (hk : k < 2^32) (hm : m < 2^32) :
    UInt32.ofNat k = UInt32.ofNat m ↔ k = m := by
  constructor
  · intro h
    have hnat := congrArg UInt32.toNat h
    rwa [UInt32.toNat_ofNat', UInt32.toNat_ofNat', Nat.mod_eq_of_lt hk, Nat.mod_eq_of_lt hm] at hnat
  · intro h
    rw [h]

theorem reads_present {α : Type} {o : Option α} {bits : α → List Bool} {q : Walk Unit}
    (h : ∀ a ∈ o, Reads stream (bits a) () q) :
    Reads stream (present o bits) () (do
      let c ← vbFlag
      optionally c q) := by
  cases o with
  | none => exact reads_bind (reads_flag false) reads_pure
  | some a => exact reads_bind (reads_flag true) (h a rfl)

end Elements

section Finding

/-- In front of a text a walk stands at its end, or finds that there is no
flag. -/
structure Finds (signalled : Bool) (bits : List Bool) (p : Walk ℕ) : Prop where
  flag : signalled = true → Yields stream bits (fun b => b.bit) p
  none : signalled = false → Stops stream bits .absent p

variable {signalled : Bool} {xs ys : List Bool}

theorem finds_bind {α : Type} {a : α} {p : Walk α} {f : α → Walk ℕ} (hp : Reads stream xs a p)
    (hf : Finds signalled ys (f a)) : Finds signalled (xs ++ ys) (p >>= f) where
  flag h := yields_bind hp (hf.flag h)
  none h := stops_bind hp (hf.none h)

theorem finds_then {q : Walk Unit} {r : Walk ℕ} (hq : Reads stream xs () q)
    (hr : Finds signalled ys r) : Finds signalled (xs ++ ys) (do q; r) := finds_bind hq hr

theorem finds_present {α : Type} {o : Option α} {bits : α → List Bool} {q : Walk Unit}
    {r : Walk ℕ} (h : ∀ a ∈ o, Reads stream (bits a) () q) (hr : Finds signalled ys r) :
    Finds signalled (present o bits ++ ys) (do
      let c ← vbFlag
      optionally c q
      r) := by
  cases o with
  | none => exact finds_bind (reads_flag false) (finds_then reads_pure hr)
  | some a =>
    show Finds signalled ([true] ++ (bits a ++ ys)) _
    exact finds_bind (reads_flag true) (finds_then (h a rfl) hr)

theorem finds_here : Finds true [] hereUnlessOverflow where
  flag _ := by
    intro b tail hb h
    rw [List.length_nil, stream.skip_zero, hereUnlessOverflow, hb.1]
    rfl
  none h := by cases h

theorem finds_unsignalled : Finds false [] unsignalled where
  flag h := by cases h
  none _ := by
    intro b tail hb h
    rw [unsignalled, hb.1]
    rfl

theorem finds_answer {p : Walk ℕ} {bytes : Bytes} {tail : List Bool} (hp : Finds signalled xs p)
    (hlen : bytes.length < 2^29) (h : bytesBits bytes = xs ++ tail) :
    (p (bitReader bytes)).map Prod.fst = if signalled then .ok xs.length else .error .absent := by
  have hfit : stream.Fit (bitReader bytes) := by
    refine ⟨rfl, rfl, ?_, Nat.zero_le _⟩
    show bytes.length*8 < 2^32
    omega
  cases signalled with
  | true =>
    rw [hp.flag rfl _ tail hfit h]
    show Except.ok (0+xs.length) = Except.ok xs.length
    rw [Nat.zero_add]
  | false =>
    rw [hp.none rfl _ tail hfit h]
    rfl

end Finding

section Shared

structure Window where
  left : Ue
  right : Ue
  top : Ue
  bottom : Ue

def Window.bits (w : Window) : List Bool := [w.left, w.right, w.top, w.bottom].flatMap ue

structure AspectRatio where
  idc : BitVec 8
  sarWidth : BitVec 16
  sarHeight : BitVec 16

def AspectRatio.bits (a : AspectRatio) : List Bool :=
  u a.idc ++ if a.idc.toNat = 255 then u a.sarWidth ++ u a.sarHeight else []

structure Vui where
  aspectRatio : Option AspectRatio
  overscanAppropriate : Option Bool
  videoFormat : Option (BitVec 3)

def Vui.bits (vui : Vui) : List Bool :=
  present vui.aspectRatio AspectRatio.bits ++ present vui.overscanAppropriate (fun x => [x]) ++
    present vui.videoFormat u

def signalled (vui : Option Vui) : Bool := vui.any fun vui => vui.videoFormat.isSome

theorem reads_window (shift32 : UInt32) (o : Option Window) :
    Reads stream (present o Window.bits) () (window shift32) := by
  apply reads_present
  intro w _
  exact reads_items [w.left, w.right, w.top, w.bottom] 0 fun k _ => reads_ue_skipped shift32 k

theorem reads_aspect (o : Option AspectRatio) :
    Reads stream (present o AspectRatio.bits) () aspectRatio := by
  apply reads_present
  intro a _
  have hidc : decide (UInt32.ofNat a.idc.toNat = 255) = decide (a.idc.toNat = 255) := by
    apply decide_eq_decide.mpr
    exact uint_eq (by omega) (by decide)
  apply reads_bind (reads_u a.idc)
  rw [hidc]
  have hsar := reads_optionally (c := decide (a.idc.toNat = 255))
    fun _ => reads_then (reads_skip_u a.sarWidth) (reads_skip_u a.sarHeight)
  simpa only [decide_eq_true_eq] using hsar

theorem finds_vui (vui : Option Vui) :
    Finds (signalled vui) (present vui Vui.bits) vuiFullRangeBit := by
  cases vui with
  | none => exact finds_bind (reads_flag false) finds_unsignalled
  | some vui =>
    have hrest : Finds vui.videoFormat.isSome (present vui.videoFormat u) (do
        let signal ← vbFlag
        if signal then do
          skipBits 3
          hereUnlessOverflow
        else unsignalled) := by
      cases vui.videoFormat with
      | none => exact finds_bind (reads_flag false) finds_unsignalled
      | some format =>
        have hformat := finds_then (reads_skip_u format) finds_here
        rw [List.append_nil] at hformat
        exact finds_bind (reads_flag true) hformat
    show Finds _ (true::(_ ++ _ ++ _)) _
    rw [List.append_assoc]
    apply finds_bind (reads_flag true)
    apply finds_then (reads_aspect vui.aspectRatio)
    exact finds_present (fun x _ => reads_skip_flag x) hrest

end Shared

end RaptorCommon.SpsSyntax
