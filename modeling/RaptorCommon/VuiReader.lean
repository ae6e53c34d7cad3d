import RaptorCommon.CText
import RaptorCommon.ExpGolomb
import RaptorCommon.StreamReader

/-!
# The bit reader of an SPS

The reader counts bits from the start of its buffer. Past the end it answers
zero and remembers the overflow. A shift by 32, which the language leaves
open, gives a value that is a parameter throughout.
-/

set_option autoImplicit false

namespace RaptorCommon.VuiReader
open RaptorCommon.CText RaptorCommon.BitString RaptorCommon.ExpGolomb RaptorCommon.StreamReader

structure VuiBits where
  buf : Bytes
  size : ℕ
  bit : ℕ
  overflow : Bool

def bitReader (rbsp : Bytes) : VuiBits where
  buf := rbsp
  size := rbsp.length
  bit := 0
  overflow := false

inductive Stop where
  | absent
  | bad
  deriving DecidableEq

abbrev Walk (α : Type) := Reader VuiBits Stop α

section Reading

def VuiBits.current (b : VuiBits) : Bool := (b.buf.getD (b.bit/8) 0).toNat.testBit (7-b.bit%8)

def readFrom : ℕ → UInt32 → VuiBits → UInt32 × VuiBits
  | 0, v, b => (v, b)
  | n+1, v, b =>
    if b.size*8%2^32 ≤ b.bit then
      let past := { b with overflow := true }
      (0, past)
    else
      let moved := { b with bit := b.bit+1 }
      readFrom n ((v <<< 1) ||| b.current.toUInt32) moved

def vbRead (n : ℕ) : Walk UInt32 := fun b => .ok (readFrom n 0 b)

/-- The loop of `vb_ue`, with the rounds it may still make. -/
def countZeros : ℕ → ℕ → VuiBits → ℕ × VuiBits
  | left, count, b =>
    if b.overflow then (count, b)
    else
      let first := readFrom 1 0 b
      if first.1 ≠ 0 then (count, first.2)
      else match left with
        | 0 => (count, first.2)
        | left+1 => countZeros left (count+1) first.2

variable (shift32 : UInt32)

def oneShifted (n : ℕ) : UInt32 := if n < 32 then 1 <<< UInt32.ofNat n else shift32

def vbUe : Walk UInt32 := do
  let count ← fun b => .ok (countZeros 32 0 b)
  let tail ← vbRead count
  return oneShifted shift32 count-1+tail

/-- Half of a `uint32_t` always fits the signed value. -/
def vbSe : Walk ℤ := do
  let v ← vbUe shift32
  return if v &&& 1 ≠ 0 then (((v+1)/2).toNat : ℤ) else -((v/2).toNat : ℤ)

def vbFlag : Walk Bool := (fun v => v ≠ 0) <$> vbRead 1

def skipBits (n : ℕ) : Walk Unit := (fun _ => ()) <$> vbRead n

def skipUe : Walk Unit := (fun _ => ()) <$> vbUe shift32

def skipSe : Walk Unit := (fun _ => ()) <$> vbSe shift32

end Reading

section Rules

/-- The bits of the buffer as a stream. The reader's bounds are those of a
buffer whose bits can be counted. -/
def stream : Tape VuiBits Bool where
  rest b := (bytesBits b.buf).drop b.bit
  skip n b := { b with bit := b.bit+n }
  Fit b := b.overflow = false ∧ b.size = b.buf.length ∧ b.size*8 < 2^32 ∧ b.bit ≤ b.size*8
  rest_skip n b := by rw [List.drop_drop]
  skip_zero b := rfl
  skip_skip m n b := by rw [Nat.add_assoc]
  fit_skip n b h hn := by
    obtain ⟨h1, h2, h3, h4⟩ := h
    rw [List.length_drop, bytesBits_length] at hn
    refine ⟨h1, h2, h3, ?_⟩
    show b.bit+n ≤ b.size*8
    omega

theorem current_bit {b : VuiBits} {x : Bool} {xs : List Bool} (hb : stream.Fit b)
    (h : stream.rest b = x::xs) : b.bit < b.size*8 ∧ b.current = x := by
  obtain ⟨-, hsize, -, -⟩ := hb
  have hget : (bytesBits b.buf)[b.bit]? = some x := by
    have h0 : ((bytesBits b.buf).drop b.bit)[0]? = some x := by
      rw [show (bytesBits b.buf).drop b.bit = x::xs from h]
      rfl
    rwa [List.getElem?_drop, Nat.add_zero] at h0
  rw [bytesBits_getElem?] at hget
  obtain ⟨c, hc, hx⟩ := Option.map_eq_some_iff.mp hget
  obtain ⟨hlt, -⟩ := List.getElem?_eq_some_iff.mp hc
  refine ⟨by omega, ?_⟩
  rw [VuiBits.current, List.getD_eq_getElem?_getD, hc, Option.getD_some, hx]

theorem shift_in (v : UInt32) (x : Bool) :
    (v <<< 1) ||| x.toUInt32 = UInt32.ofNat (v.toNat*2+x.toNat) := by
  have hx : x.toUInt32.toNat = x.toNat := by cases x <;> rfl
  have hlt : x.toNat < 2^1 := x.toNat_lt
  have hshift : v.toNat <<< 1 % 2^32 = (v.toNat%2^31) <<< 1 := by
    rw [Nat.shiftLeft_eq, Nat.shiftLeft_eq]
    omega
  apply UInt32.toNat.inj
  rw [UInt32.toNat_or, UInt32.toNat_shiftLeft, UInt32.toNat_ofNat', hx]
  show v.toNat <<< 1 % 2^32 ||| x.toNat = _
  rw [hshift, ← Nat.shiftLeft_add_eq_or_of_lt hlt, Nat.shiftLeft_eq]
  omega

theorem read_from_bits {b : VuiBits} (v : UInt32) {xs tail : List Bool} (hb : stream.Fit b)
    (h : stream.rest b = xs ++ tail) :
    readFrom xs.length v b =
      (UInt32.ofNat (v.toNat*2^xs.length+value xs), stream.skip xs.length b) := by
  induction xs generalizing v b with
  | nil =>
    rw [List.length_nil, readFrom, stream.skip_zero]
    simp
  | cons x xs ih =>
    obtain ⟨hlt, hcur⟩ := current_bit hb (by rw [h, List.cons_append])
    obtain ⟨-, -, hcount, -⟩ := id hb
    have hone : stream.rest b = [x] ++ (xs ++ tail) := by rw [h, List.singleton_append, List.cons_append]
    have hahead := rest_ahead hone
    have hnext := ih (b := stream.skip 1 b) ((v <<< 1) ||| x.toUInt32) (fit_ahead hb hone) hahead
    rw [List.length_cons, readFrom, if_neg (by rw [Nat.mod_eq_of_lt hcount]; omega), hcur]
    refine hnext.trans ?_
    rw [stream.skip_skip, shift_in, Nat.add_comm 1]
    congr 1
    apply UInt32.toNat.inj
    rw [UInt32.toNat_ofNat', UInt32.toNat_ofNat', UInt32.toNat_ofNat', value_cons, pow_succ,
      Nat.add_mod, Nat.mod_mul_mod, ← Nat.add_mod]
    congr 1
    ring

theorem reads_read (xs : List Bool) :
    Reads stream xs (UInt32.ofNat (value xs)) (vbRead xs.length) := by
  intro b tail hb h
  rw [vbRead, read_from_bits 0 hb h]
  simp

theorem reads_skip {n : ℕ} {xs : List Bool} (h : xs.length = n) :
    Reads stream xs () (skipBits n) := by
  subst h
  exact reads_map (reads_read xs)

theorem read_one {b : VuiBits} {x : Bool} {tail : List Bool} (hb : stream.Fit b)
    (h : stream.rest b = x::tail) : readFrom 1 0 b = (x.toUInt32, stream.skip 1 b) := by
  have hread : readFrom [x].length 0 b = _ := read_from_bits 0 hb h
  rw [List.length_singleton] at hread
  rw [hread]
  cases x <;> rfl

theorem reads_flag (x : Bool) : Reads stream [x] x vbFlag := by
  have hx : decide (x.toUInt32 ≠ 0) = x := by cases x <;> rfl
  have hread : Reads (ε := Stop) stream [x] x.toUInt32 (vbRead 1) := by
    intro b tail hb h
    rw [vbRead, read_one hb h]
    rfl
  have hmap := reads_map (g := fun v => decide (v ≠ 0)) hread
  rwa [hx] at hmap

theorem count_zeros_bits {b : VuiBits} {left count n : ℕ} {tail : List Bool} (hb : stream.Fit b)
    (hn : n ≤ left) (h : stream.rest b = List.replicate n false ++ true::tail) :
    countZeros left count b = (count+n, stream.skip (n+1) b) := by
  have hover : b.overflow = false := hb.1
  induction n generalizing left count b with
  | zero =>
    rw [countZeros, hover, read_one hb h]
    rfl
  | succ n ih =>
    obtain ⟨left, rfl⟩ : ∃ m, left = m+1 := ⟨left-1, by omega⟩
    have hzero : stream.rest b = [false] ++ (List.replicate n false ++ true::tail) := by
      rw [h, List.replicate_succ]
      rfl
    have hahead := rest_ahead hzero
    have hrest : countZeros left (count+1) (stream.skip 1 b) = _ :=
      ih (fit_ahead hb hzero) (by omega) hahead hover
    rw [countZeros, hover, read_one hb hzero]
    refine hrest.trans ?_
    rw [stream.skip_skip, Nat.add_assoc, Nat.add_comm 1 n, Nat.add_comm 1 (n+1)]

variable (shift32 : UInt32)

theorem one_shifted_toNat {n : ℕ} (h : n < 32) : (oneShifted shift32 n).toNat = 2^n := by
  have hpow : 2^n < 2^32 := Nat.pow_lt_pow_right (by decide) h
  have hn : (UInt32.ofNat n).toNat%32 = n := by
    rw [UInt32.toNat_ofNat']
    omega
  rw [oneShifted, if_pos h, UInt32.toNat_shiftLeft, hn, Nat.shiftLeft_eq]
  show 1*2^n%2^32 = 2^n
  rw [Nat.one_mul, Nat.mod_eq_of_lt hpow]

theorem reads_ue {k : ℕ} (hk : k < 2^32-1) :
    Reads stream (ueBits k) (UInt32.ofNat k) (vbUe shift32) := by
  have hm : zeros k < 32 := zeros_lt (by omega)
  have hle := zeros_le k
  have hcount : Reads (ε := Stop) stream (List.replicate (zeros k) false ++ [true]) (zeros k)
      (fun b => .ok (countZeros 32 0 b)) := by
    intro b tail hb h
    rw [List.append_assoc] at h
    show Except.ok (countZeros 32 0 b) = _
    rw [count_zeros_bits hb (by omega) h, Nat.zero_add]
    simp
  have htail := reads_read (digits (zeros k) (k+1))
  rw [digits_length, ue_tail_value] at htail
  have hval : oneShifted shift32 (zeros k)-1+UInt32.ofNat (k+1-2^zeros k) = UInt32.ofNat k := by
    have hone := one_shifted_toNat shift32 hm
    have hpos : 0 < 2^zeros k := by positivity
    apply UInt32.toNat.inj
    rw [UInt32.toNat_add, UInt32.toNat_sub, UInt32.toNat_ofNat', UInt32.toNat_ofNat', hone]
    show ((2^32-1+2^zeros k)%2^32+(k+1-2^zeros k)%2^32)%2^32 = k%2^32
    omega
  rw [ue_bits_parts, ← List.singleton_append, ← List.append_assoc, vbUe]
  apply reads_bind hcount
  rw [← List.append_nil (digits _ _)]
  apply reads_bind htail
  rw [hval]
  exact reads_pure

theorem reads_skip_ue {k : ℕ} (hk : k < 2^32-1) :
    Reads stream (ueBits k) () (skipUe shift32) := reads_map (reads_ue shift32 hk)

theorem se_value {v : UInt32} (hv : v.toNat < 2^32-1) :
    (if v &&& 1 ≠ 0 then (((v+1)/2).toNat : ℤ) else -((v/2).toNat : ℤ)) = seValue v.toNat := by
  have hsucc : ((v+1)/2).toNat = (v.toNat+1)/2 := by
    rw [UInt32.toNat_div, UInt32.toNat_add]
    show (v.toNat+1)%2^32/2 = _
    omega
  have hhalf : (v/2).toNat = v.toNat/2 := by
    rw [UInt32.toNat_div]
    rfl
  have hodd : v &&& 1 ≠ 0 ↔ v.toNat%2 = 1 := by
    rw [ne_eq, ← UInt32.toNat_inj, UInt32.toNat_and]
    show ¬(v.toNat &&& 1) = 0 ↔ _
    rw [Nat.and_one_is_mod]
    omega
  rw [hsucc, hhalf, seValue]
  simp only [hodd]

theorem reads_se {v : ℤ} (hv : seNumber v < 2^32-1) :
    Reads stream (seBits v) v (vbSe shift32) := by
  have hnum : (UInt32.ofNat (seNumber v)).toNat = seNumber v := by
    rw [UInt32.toNat_ofNat']
    omega
  have hval := se_value (v := UInt32.ofNat (seNumber v)) (by rw [hnum]; exact hv)
  rw [hnum, seValue_number] at hval
  rw [vbSe, seBits, ← List.append_nil (ueBits _)]
  apply reads_bind (reads_ue shift32 hv)
  rw [hval]
  exact reads_pure

theorem reads_skip_se {v : ℤ} (hv : seNumber v < 2^32-1) :
    Reads stream (seBits v) () (skipSe shift32) := reads_map (reads_se shift32 hv)

end Rules

section Buffer

structure Within (bytes : Bytes) (b : VuiBits) : Prop where
  buf : b.buf = bytes
  size : b.size = bytes.length
  bit : b.bit ≤ bytes.length*8

variable {bytes : Bytes}

theorem read_from_within {b : VuiBits} (n : ℕ) (v : UInt32) (h : Within bytes b) :
    Within bytes (readFrom n v b).2 := by
  induction n generalizing v b with
  | zero => exact h
  | succ n ih =>
    rw [readFrom]
    split
    · exact ⟨h.buf, h.size, h.bit⟩
    next hlt =>
      apply ih
      refine ⟨h.buf, h.size, ?_⟩
      have hle : b.size*8%2^32 ≤ b.size*8 := Nat.mod_le _ _
      have hsize := h.size
      show b.bit+1 ≤ _
      omega

theorem count_zeros_within {b : VuiBits} (left count : ℕ) (h : Within bytes b) :
    Within bytes (countZeros left count b).2 := by
  have hone := fun (b : VuiBits) (hb : Within bytes b) => read_from_within 1 0 hb
  induction left generalizing count b with
  | zero =>
    rw [countZeros]
    dsimp only
    split
    · exact h
    · split
      · exact hone b h
      · exact hone b h
  | succ left ih =>
    rw [countZeros]
    dsimp only
    split
    · exact h
    · split
      · exact hone b h
      · exact ih _ (hone b h)

end Buffer

section Walks

/-- What a walk is made of: reads, the zeros in front of a number, and looks at
the reader that leave it as it is. -/
inductive VuiStep : ∀ α : Type, Walk α → Prop
  | read (n : ℕ) : VuiStep UInt32 (vbRead n)
  | zeros : VuiStep ℕ (fun b => .ok (countZeros 32 0 b))
  | look {α : Type} (f : Bool → ℕ → Except Stop α) :
      VuiStep α (fun b => (f b.overflow b.bit).map fun a => (a, b))

abbrev Walks {α : Type} (p : Walk α) : Prop := Built VuiStep α p

theorem walks_read (n : ℕ) : Walks (vbRead n) := .step (.read n)

theorem walks_flag : Walks vbFlag := built_map (walks_read 1)

theorem walks_skip (n : ℕ) : Walks (skipBits n) := built_map (walks_read n)

theorem walks_throw {α : Type} (e : Stop) : Walks (α := α) (throw e) :=
  .step (.look fun _ _ => .error e)

theorem walks_unless {α : Type} {c : Prop} [Decidable c] {e : Stop} {p : Walk α} (h : Walks p) :
    Walks (if c then throw e else p) := built_ite (walks_throw e) h

variable (shift32 : UInt32)

theorem walks_ue : Walks (vbUe shift32) := by
  apply Built.bind (.step .zeros)
  intro count
  exact .bind (walks_read count) fun _ => .pure _

theorem walks_se : Walks (vbSe shift32) := .bind (walks_ue shift32) fun _ => .pure _

theorem walks_skip_ue : Walks (skipUe shift32) := built_map (walks_ue shift32)

theorem walks_skip_se : Walks (skipSe shift32) := built_map (walks_se shift32)

variable {shift32} {α : Type} {p : Walk α}

theorem walks_within {bytes : Bytes} (h : Walks p) : Keeps (Within bytes) p := by
  refine built_keeps ?_ h
  intro α p hp b r hb h
  cases hp with
  | read n =>
    cases h
    exact read_from_within n 0 hb
  | zeros =>
    cases h
    exact count_zeros_within 32 0 hb
  | look f =>
    dsimp only at h
    cases hf : f b.overflow b.bit with
    | error e =>
      rw [hf] at h
      cases h
    | ok a =>
      rw [hf] at h
      cases h
      exact hb

end Walks

section Locality

def VuiBits.swap (y : Bytes) (b : VuiBits) : VuiBits := { b with buf := y }

def SameBits (i j : ℕ) (x y : Bytes) : Prop :=
  ∀ k, i ≤ k → k < j → (bytesBits x)[k]? = (bytesBits y)[k]?

variable {α : Type} {p : Walk α}

/-- A run that stays in its buffer and looks at no bit it does not move over. -/
structure LocalRun (p : Walk α) (b : VuiBits) (r : α × VuiBits) : Prop where
  buf : r.2.buf = b.buf
  bit : b.bit ≤ r.2.bit
  swap : ∀ y, SameBits b.bit r.2.bit b.buf y → p (b.swap y) = .ok (r.1, r.2.swap y)

def Local (p : Walk α) (b : VuiBits) : Prop := ∀ r, p b = .ok r → LocalRun p b r

theorem local_congr {q : Walk α} {b : VuiBits} (h : ∀ y, p (b.swap y) = q (b.swap y))
    (hq : Local q b) : Local p b := by
  intro r hr
  have hself : p b = q b := h b.buf
  have hrun := hq r (hself.symm.trans hr)
  exact ⟨hrun.buf, hrun.bit, fun y hy => (h y).trans (hrun.swap y hy)⟩

theorem local_pure (a : α) (b : VuiBits) : Local (pure a) b := by
  intro r hr
  cases hr
  exact ⟨rfl, le_rfl, fun _ _ => rfl⟩

theorem local_bind {γ : Type} {f : α → Walk γ} {b : VuiBits} (hp : Local p b)
    (hf : ∀ q, p b = .ok q → Local (f q.1) q.2) : Local (p >>= f) b := by
  intro r hr
  obtain ⟨q, hq, hqr⟩ := bind_ok hr
  have hfirst := hp q hq
  have hrest := hf q hq r hqr
  refine ⟨hrest.buf.trans hfirst.buf, hfirst.bit.trans hrest.bit, ?_⟩
  intro y hy
  have hmoved := hfirst.bit
  have hleft := hrest.bit
  rw [bind_run (hfirst.swap y fun k h1 h2 => hy k h1 (by omega))]
  apply hrest.swap
  intro k h1 h2
  rw [hfirst.buf]
  exact hy k (by omega) h2

theorem current_bits (b : VuiBits) : b.current = ((bytesBits b.buf)[b.bit]?).getD false := by
  rw [bytesBits_getElem?, VuiBits.current, List.getD_eq_getElem?_getD]
  cases b.buf[b.bit/8]? with
  | none => simp
  | some c => rfl

theorem local_take (b : VuiBits) :
    Local (fun b => .ok (b.current, { b with bit := b.bit+1 })) b := by
  intro r hr
  cases hr
  refine ⟨rfl, Nat.le_succ _, ?_⟩
  intro y hy
  have hcur : (b.swap y).current = b.current := by
    rw [current_bits, current_bits]
    exact congrArg (fun o => o.getD false) (hy b.bit le_rfl (Nat.lt_succ_self _)).symm
  show Except.ok ((b.swap y).current, _) = _
  rw [hcur]
  rfl

theorem local_read (n : ℕ) (v : UInt32) (b : VuiBits) :
    Local (fun b => .ok (readFrom n v b)) b := by
  induction n generalizing v b with
  | zero => exact local_pure v b
  | succ n ih =>
    by_cases hend : b.size*8%2^32 ≤ b.bit
    · have hpast : Local (α := UInt32) (fun b => .ok (0, { b with overflow := true })) b := by
        intro r hr
        cases hr
        exact ⟨rfl, le_rfl, fun _ _ => rfl⟩
      apply local_congr _ hpast
      intro y
      rw [readFrom]
      exact congrArg Except.ok (if_pos hend)
    · have hrest := local_bind
        (f := fun x b => .ok (readFrom n ((v <<< 1) ||| x.toUInt32) b)) (local_take b)
        fun q _ => ih ((v <<< 1) ||| q.1.toUInt32) q.2
      apply local_congr _ hrest
      intro y
      rw [readFrom]
      exact congrArg Except.ok (if_neg hend)

theorem local_zeros (left count : ℕ) (b : VuiBits) :
    Local (fun b => .ok (countZeros left count b)) b := by
  have hover : ∀ left count (b : VuiBits), b.overflow = true →
      Local (fun b => .ok (countZeros left count b)) b := by
    intro left count b h
    apply local_congr _ (local_pure count b)
    intro y
    rw [countZeros.eq_def]
    exact congrArg Except.ok (if_pos h)
  induction left generalizing count b with
  | zero =>
    by_cases h : b.overflow = true
    · exact hover 0 count b h
    · have hrest := local_bind (f := fun _ => pure count) (local_read 1 0 b)
        fun q _ => local_pure count q.2
      apply local_congr _ hrest
      intro y
      rw [countZeros, ite_self]
      exact congrArg Except.ok (if_neg h)
  | succ left ih =>
    by_cases h : b.overflow = true
    · exact hover (left+1) count b h
    · let rest : UInt32 → Walk ℕ := fun v =>
        if v ≠ 0 then pure count else fun b => .ok (countZeros left (count+1) b)
      have hrest : ∀ v b, Local (rest v) b := by
        intro v b
        by_cases hv : v ≠ 0
        · rw [show rest v = pure count from if_pos hv]
          exact local_pure count b
        · rw [show rest v = _ from if_neg hv]
          exact ih (count+1) b
      apply local_congr _ (local_bind (local_read 1 0 b) fun q _ => hrest q.1 q.2)
      intro y
      rw [countZeros]
      refine (congrArg Except.ok (if_neg h)).trans ?_
      show _ = rest (readFrom 1 0 (b.swap y)).1 (readFrom 1 0 (b.swap y)).2
      by_cases hv : (readFrom 1 0 (b.swap y)).1 ≠ 0
      · rw [show rest _ = pure count from if_pos hv, if_pos hv]
        rfl
      · rw [show rest _ = _ from if_neg hv, if_neg hv]

/-- A walk looks at no bit it does not move over. -/
theorem walks_local (h : Walks p) (b : VuiBits) : Local p b := by
  induction h generalizing b with
  | step h =>
    cases h with
    | read n => exact local_read n 0 b
    | zeros => exact local_zeros 32 0 b
    | look f =>
      intro r hr
      dsimp only at hr
      cases hf : f b.overflow b.bit with
      | error e =>
        rw [hf] at hr
        cases hr
      | ok a =>
        rw [hf] at hr
        cases hr
        refine ⟨rfl, le_rfl, ?_⟩
        intro y _
        show (f b.overflow b.bit).map _ = _
        rw [hf]
        rfl
  | pure a => exact local_pure a b
  | bind hp hf ihp ihf => exact local_bind (ihp b) fun q _ => ihf q.1 q.2

end Locality

end RaptorCommon.VuiReader
