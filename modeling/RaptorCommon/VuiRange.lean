import RaptorCommon.VuiOps

/-!
# Where the SPS walk stays in range

Two conditions on the bits ahead and one on a number read before decide
whether an operation has a meaning: a code may have too many zeros, the delta
of a scaling list may be too far from zero, and a reference may ask for the
least number of bits an `int` can hold. The two indices are always inside.
-/

set_option autoImplicit false

namespace RaptorCommon.VuiRange
open RaptorCommon.CText RaptorCommon.BitString RaptorCommon.ExpGolomb RaptorCommon.StreamReader
open RaptorCommon.TracedReader RaptorCommon.VuiReader RaptorCommon.VuiWalk RaptorCommon.VuiEscape
open RaptorCommon.VuiEdit RaptorCommon.VuiOps

section Conditions

def zerosAhead : List Bool → ℕ
  | false::xs => zerosAhead xs+1
  | _ => 0

/-- 32 zeros, or 31 with nothing behind them. -/
def TooManyZeros (xs : List Bool) : Prop :=
  32 ≤ zerosAhead xs ∨ zerosAhead xs = 31 ∧ xs.length = 31

/-- A code of 31 zeros whose last 31 bits take the delta too far from zero. -/
def HugeDelta (last : ℤ) (xs : List Bool) : Prop :=
  zerosAhead xs = 31 ∧ 63 ≤ xs.length ∧
    (if value ((xs.drop 32).take 31)%2 = 0 then
      2^30 ≤ last+256+(value ((xs.drop 32).take 31)/2 : ℕ)
    else last+2^30 < (value ((xs.drop 32).take 31)/2 : ℕ))

/-- The bits ahead, or the number to count down from, are none that take the
operation out of its range. -/
def Clear : Op → Prop
  | .shift b => b.overflow = false → ¬TooManyZeros (stream.rest b)
  | .scale last b => b.overflow = false → ¬HugeDelta last (stream.rest b)
  | .count n => n ≠ -2^31
  | .byte _ _ => True
  | .slot _ => True

theorem zeros_split (xs : List Bool) : xs = List.replicate (zerosAhead xs) false ∨
    ∃ tail, xs = List.replicate (zerosAhead xs) false ++ true::tail := by
  induction xs with
  | nil => exact .inl rfl
  | cons x xs ih =>
    cases x with
    | true => exact .inr ⟨xs, rfl⟩
    | false =>
      rcases ih with h | ⟨tail, h⟩
      · exact .inl (by rw [zerosAhead, List.replicate_succ, ← h])
      · exact .inr ⟨tail, by rw [zerosAhead, List.replicate_succ, List.cons_append, ← h]⟩

end Conditions

section Codes

variable {b : VuiBits}

theorem rest_nil (hb : stream.Fit b) (h : stream.rest b = []) : b.size*8%2^32 ≤ b.bit := by
  obtain ⟨-, hsize, -, -⟩ := hb
  have hle := List.drop_eq_nil_iff.mp h
  rw [bytesBits_length] at hle
  exact Nat.le_trans (Nat.mod_le _ _) (by omega)

def pastEnd (b : VuiBits) : VuiBits := { b with overflow := true }

theorem read_past (n : ℕ) (v : UInt32) (h : b.size*8%2^32 ≤ b.bit) :
    readFrom (n+1) v b = (0, pastEnd b) := by
  rw [readFrom, if_pos h]
  rfl

theorem read_short {n : ℕ} (v : UInt32) (hb : stream.Fit b) (h : (stream.rest b).length < n) :
    (readFrom n v b).1 = 0 := by
  induction n generalizing v b with
  | zero => exact absurd h (Nat.not_lt_zero _)
  | succ n ih =>
    cases hrest : stream.rest b with
    | nil => rw [read_past n v (rest_nil hb hrest)]
    | cons x xs =>
      have hone : stream.rest b = [x] ++ xs := hrest
      have hbit := (current_bit hb hrest).1
      obtain ⟨-, -, hcount, -⟩ := id hb
      have hshort : (stream.rest (stream.skip 1 b)).length < n := by
        rw [show stream.rest (stream.skip 1 b) = xs from rest_ahead hone]
        rw [hrest, List.length_cons] at h
        exact Nat.lt_of_succ_lt_succ h
      rw [readFrom, if_neg (by rw [Nat.mod_eq_of_lt hcount]; omega)]
      exact ih _ (fit_ahead hb hone) hshort

theorem read_lt (n : ℕ) {k : ℕ} {v : UInt32} (hv : v.toNat < 2^k) (h : k+n ≤ 32) :
    (readFrom n v b).1.toNat < 2^(k+n) := by
  induction n generalizing k v b with
  | zero => exact hv
  | succ n ih =>
    rw [readFrom]
    split
    · exact Nat.two_pow_pos _
    · have hstep : ((v <<< 1) ||| b.current.toUInt32).toNat < 2^(k+1) := by
        have hbit := b.current.toNat_lt
        rw [shift_in, UInt32.toNat_ofNat', pow_succ]
        exact Nat.lt_of_le_of_lt (Nat.mod_le _ _) (by omega)
      let moved := { b with bit := b.bit+1 }
      have hrest := ih (b := moved) hstep (by omega)
      rwa [Nat.add_right_comm, Nat.add_assoc] at hrest

theorem count_full {left count : ℕ} {more : List Bool} (hb : stream.Fit b)
    (h : stream.rest b = List.replicate left false ++ more) :
    (countZeros left count b).1 = count+left := by
  have hover : b.overflow = false := hb.1
  induction left generalizing count b with
  | zero =>
    rw [countZeros, hover]
    dsimp only
    split
    · rfl
    · split <;> rfl
  | succ left ih =>
    have hzero : stream.rest b = [false] ++ (List.replicate left false ++ more) := h
    rw [countZeros, hover, read_one hb hzero]
    refine (ih (fit_ahead hb hzero) (rest_ahead hzero) hover).trans ?_
    rw [Nat.add_assoc, Nat.add_comm 1]

theorem count_end {left count n : ℕ} (hb : stream.Fit b) (hn : n < left)
    (h : stream.rest b = List.replicate n false) :
    countZeros left count b = (count+n+1, pastEnd (stream.skip n b)) := by
  have hover : b.overflow = false := hb.1
  obtain ⟨left, rfl⟩ : ∃ m, left = m+1 := ⟨left-1, by omega⟩
  induction n generalizing left count b with
  | zero =>
    rw [countZeros, hover, read_past 0 0 (rest_nil hb h), stream.skip_zero]
    cases left with
    | zero => rfl
    | succ left =>
      dsimp only
      rw [countZeros]
      rfl
  | succ n ih =>
    obtain ⟨left, rfl⟩ : ∃ m, left = m+1 := ⟨left-1, by omega⟩
    have hzero : stream.rest b = [false] ++ List.replicate n false := h
    rw [countZeros, hover, read_one hb hzero]
    refine (ih (fit_ahead hb hzero) (rest_ahead hzero) hover left (by omega)).trans ?_
    rw [stream.skip_skip, List.length_singleton, Nat.add_assoc count, Nat.add_comm 1 n]

theorem count_past {b : VuiBits} (h : b.overflow = true) (left count : ℕ) :
    countZeros left count b = (count, b) := by
  cases left <;> rw [countZeros, if_pos h]

theorem all_zeros {xs : List Bool} (h : xs = List.replicate (zerosAhead xs) false) :
    xs.length = zerosAhead xs := by
  have hlen := congrArg List.length h
  rwa [List.length_replicate] at hlen

theorem zeros_full {left : ℕ} {xs : List Bool} (h : left ≤ zerosAhead xs) :
    ∃ more, xs = List.replicate left false ++ more := by
  have hsplit : List.replicate (zerosAhead xs) false =
      List.replicate left false ++ List.replicate (zerosAhead xs-left) false := by
    rw [← List.replicate_add, Nat.add_sub_cancel' h]
  rcases zeros_split xs with hxs | ⟨tail, hxs⟩
  · exact ⟨_, hxs.trans hsplit⟩
  · exact ⟨_, hxs.trans (by rw [hsplit, List.append_assoc])⟩

/-- The shift of a code is in range unless too many zeros are ahead. -/
theorem shift_range (hb : stream.Fit b) :
    (countZeros 32 0 b).1 < 32 ↔ ¬TooManyZeros (stream.rest b) := by
  unfold TooManyZeros
  by_cases hfull : 32 ≤ zerosAhead (stream.rest b)
  · obtain ⟨more, hmore⟩ := zeros_full hfull
    rw [count_full hb hmore]
    omega
  · rcases zeros_split (stream.rest b) with h | ⟨tail, h⟩
    · have hlength := all_zeros h
      rw [count_end hb (Nat.lt_of_not_le hfull) h]
      dsimp only
      omega
    · have hlength := congrArg List.length h
      rw [List.length_append, List.length_replicate, List.length_cons] at hlength
      rw [count_zeros_bits hb (by omega) h]
      dsimp only
      omega

theorem delta_at (shift32 : UInt32) {c : ℕ} {b' : VuiBits} (hc : c < 32)
    (hcount : countZeros 32 0 b = (c, b')) :
    deltaAt shift32 b = seValue (2^c-1+(readFrom c 0 b').1.toNat) := by
  have hone := one_shifted_toNat shift32 hc
  have hpow : 2^c ≤ 2^31 := Nat.pow_le_pow_right (by decide) (Nat.le_of_lt_succ hc)
  have htail : (readFrom c 0 b').1.toNat < 2^c := by
    have hlt := read_lt (b := b') c (k := 0) (v := 0) (by decide) (by omega)
    rwa [Nat.zero_add] at hlt
  have hv : (oneShifted shift32 c-1+(readFrom c 0 b').1).toNat =
      2^c-1+(readFrom c 0 b').1.toNat := by
    have hpos := Nat.two_pow_pos c
    rw [UInt32.toNat_add, UInt32.toNat_sub, hone]
    show ((2^32-1+2^c)%2^32+_)%2^32 = _
    omega
  have hrun : vbSe shift32 b = .ok
      (if (oneShifted shift32 c-1+(readFrom c 0 b').1) &&& 1 ≠ 0 then
        (((oneShifted shift32 c-1+(readFrom c 0 b').1+1)/2).toNat : ℤ)
        else -(((oneShifted shift32 c-1+(readFrom c 0 b').1)/2).toNat : ℤ),
      (readFrom c 0 b').2) := by
    have hue : vbUe shift32 b = .ok (oneShifted shift32 c-1+(readFrom c 0 b').1, (readFrom c 0 b').2) := by
      rw [vbUe, bind_run (q := (c, b')) (congrArg Except.ok hcount)]
      rfl
    rw [vbSe, bind_run hue]
    rfl
  rw [deltaAt, hrun, se_value (by rw [hv]; omega), hv]

theorem delta_small {last : ℤ} (hlast : -255 ≤ last ∧ last ≤ 255) {k : ℕ} (hk : k ≤ 2^31-1) :
    FitsInt (last+seValue k) ∧ FitsInt (last+seValue k+256) := by
  unfold FitsInt
  rw [seValue]
  split <;> omega

theorem delta_large {last : ℤ} (hlast : -255 ≤ last ∧ last ≤ 255) {t : ℕ} (ht : t < 2^31) :
    (FitsInt (last+seValue (2^31-1+t)) ∧ FitsInt (last+seValue (2^31-1+t)+256)) ↔
      ¬if t%2 = 0 then 2^30 ≤ last+256+(t/2 : ℕ) else last+2^30 < (t/2 : ℕ) := by
  unfold FitsInt
  rw [seValue]
  split <;> split <;> omega

theorem scale_end (shift32 : UInt32) {last : ℤ} (hlast : -255 ≤ last ∧ last ≤ 255)
    (hb : stream.Fit b) {n : ℕ} (hn : n ≤ 30) (h : stream.rest b = List.replicate n false) :
    FitsInt (last+deltaAt shift32 b) ∧ FitsInt (last+deltaAt shift32 b+256) := by
  have hlength := congrArg List.length h
  rw [List.length_replicate] at hlength
  have hend : countZeros 32 0 b = (0+n+1, pastEnd (stream.skip n b)) :=
    count_end hb (by omega) h
  rw [Nat.zero_add] at hend
  have hnil : stream.rest (stream.skip n b) = [] := by
    rw [stream.rest_skip]
    exact List.drop_eq_nil_of_le (Nat.le_of_eq hlength)
  have hle := rest_nil (stream.fit_skip n b hb (Nat.le_of_eq hlength.symm)) hnil
  have hpast := read_past (b := pastEnd (stream.skip n b)) n 0 hle
  have hpow : 2^(n+1) ≤ 2^31 := Nat.pow_le_pow_right (by decide) (by omega)
  rw [delta_at shift32 (by omega) hend, hpast]
  exact delta_small hlast (Nat.sub_le_sub_right hpow 1)

theorem scale_code (shift32 : UInt32) {last : ℤ} (hlast : -255 ≤ last ∧ last ≤ 255)
    (hb : stream.Fit b) {n : ℕ} (hn : n ≤ 31) {tail : List Bool}
    (h : stream.rest b = List.replicate n false ++ true::tail) :
    (FitsInt (last+deltaAt shift32 b) ∧ FitsInt (last+deltaAt shift32 b+256)) ↔
      ¬(n = 31 ∧ 31 ≤ tail.length ∧ if value (tail.take 31)%2 = 0 then
          2^30 ≤ last+256+(value (tail.take 31)/2 : ℕ)
        else last+2^30 < (value (tail.take 31)/2 : ℕ)) := by
  have hcount : countZeros 32 0 b = (0+n, stream.skip (n+1) b) :=
    count_zeros_bits hb (by omega) h
  rw [Nat.zero_add] at hcount
  have hone : stream.rest b = (List.replicate n false ++ [true]) ++ tail := by
    rw [List.append_assoc]
    exact h
  have hfit := fit_ahead hb hone
  have hrest := rest_ahead hone
  rw [List.length_append, List.length_replicate, List.length_singleton] at hfit hrest
  rw [delta_at shift32 (by omega) hcount]
  have htail : (readFrom n 0 (stream.skip (n+1) b)).1.toNat < 2^n := by
    have hlt := read_lt (b := stream.skip (n+1) b) n (k := 0) (v := 0) (by decide) (by omega)
    rwa [Nat.zero_add] at hlt
  rcases Nat.lt_or_eq_of_le hn with hlt | rfl
  · have hpow : 2^n ≤ 2^30 := Nat.pow_le_pow_right (by decide) (Nat.le_of_lt_succ hlt)
    exact iff_of_true (delta_small hlast (by omega)) fun hall => absurd hall.1 (Nat.ne_of_lt hlt)
  by_cases hlong : 31 ≤ tail.length
  · have hsplit : stream.rest (stream.skip (31+1) b) = tail.take 31 ++ tail.drop 31 := by
      rw [hrest, List.take_append_drop]
    have htake : (tail.take 31).length = 31 := List.length_take_of_le hlong
    have hread : readFrom (tail.take 31).length 0 (stream.skip (31+1) b) = _ :=
      read_from_bits 0 hfit hsplit
    rw [htake] at hread
    have hval : (readFrom 31 0 (stream.skip (31+1) b)).1.toNat = value (tail.take 31) := by
      have hlt := value_lt (tail.take 31)
      rw [htake] at hlt
      rw [hread, UInt32.toNat_ofNat']
      show (0*2^31+value (tail.take 31))%2^32 = _
      omega
    rw [hval, delta_large hlast (hval ▸ htail)]
    simp [hlong]
  · have hshort := read_short (n := 31) 0 hfit (by rw [hrest]; omega)
    rw [hshort]
    exact iff_of_true (delta_small hlast (Nat.le_refl _)) fun hall => hlong hall.2.1

/-- The sums of a scaling delta are in range unless the delta is too far from
zero. -/
theorem scale_range (shift32 : UInt32) {last : ℤ} (hlast : -255 ≤ last ∧ last ≤ 255)
    (hb : stream.Fit b) :
    InRange shift32 (.scale last b) ↔ ¬HugeDelta last (stream.rest b) := by
  have hshift := shift_range hb
  unfold TooManyZeros at hshift
  by_cases hc : (countZeros 32 0 b).1 < 32
  · have hfew := hshift.mp hc
    rw [InRange, imp_iff_right hc]
    rcases zeros_split (stream.rest b) with h | ⟨tail, h⟩
    · have hlength := all_zeros h
      refine iff_of_true (scale_end shift32 hlast hb (by omega) h) fun hhuge => ?_
      have h31 := hhuge.1
      omega
    · have hlength := congrArg List.length h
      rw [List.length_append, List.length_replicate, List.length_cons] at hlength
      have hdrop : zerosAhead (stream.rest b) = 31 → (stream.rest b).drop 32 = tail := by
        intro h31
        rw [h31] at h
        rw [h]
        rfl
      rw [scale_code shift32 hlast hb (by omega) h]
      refine not_congr ⟨fun hall => ?_, fun hhuge => ?_⟩
      · refine ⟨hall.1, by omega, ?_⟩
        rw [hdrop hall.1]
        exact hall.2.2
      · have h63 := hhuge.2.1
        have hfar := hhuge.2.2
        rw [hdrop hhuge.1] at hfar
        exact ⟨hhuge.1, by omega, hfar⟩
  · refine iff_of_true (fun h => absurd h hc) fun hhuge => hc (hshift.mpr ?_)
    have h31 := hhuge.1
    have h63 := hhuge.2.1
    omega

end Codes

section Traced

variable (shift32 : UInt32)

def Settled (op : Op) : Prop := InRange shift32 op ↔ Clear op

def Placed (rbsp : Bytes) (b : VuiBits) : Prop := Within rbsp b ∧ rbsp.length*8 < 2^32

theorem placed_fit {rbsp : Bytes} {b : VuiBits} (h : Placed rbsp b) (hover : b.overflow = false) :
    stream.Fit b := by
  obtain ⟨hin, hcount⟩ := h
  have hsize := hin.size
  have hbit := hin.bit
  exact ⟨hover, by rw [hin.buf, hsize], by omega, by omega⟩

theorem settled_shift {rbsp : Bytes} {b : VuiBits} (h : Placed rbsp b) :
    Settled shift32 (.shift b) := by
  cases hover : b.overflow with
  | true =>
    refine iff_of_true ?_ fun hfalse => absurd (hover.symm.trans hfalse) (by decide)
    rw [InRange, count_past hover]
    exact Nat.zero_lt_succ 31
  | false =>
    refine (shift_range (placed_fit h hover)).trans ⟨fun hclear _ => hclear, fun hclear => ?_⟩
    exact hclear hover

theorem settled_scale {rbsp : Bytes} {b : VuiBits} (h : Placed rbsp b) {last : ℤ}
    (hlast : -255 ≤ last ∧ last ≤ 255) : Settled shift32 (.scale last b) := by
  cases hover : b.overflow with
  | true =>
    refine iff_of_true (fun _ => ?_) fun hfalse => absurd (hover.symm.trans hfalse) (by decide)
    rw [delta_at shift32 (by decide) (count_past hover 32 0)]
    exact delta_small hlast (show 2^0-1+0 ≤ 2^31-1 by decide)
  | false =>
    refine (scale_range shift32 hlast (placed_fit h hover)).trans
      ⟨fun hclear _ => hclear, fun hclear => hclear hover⟩

theorem settled_count {n : ℤ} (h : FitsInt n) : Settled shift32 (.count n) := by
  obtain ⟨hlo, hhi⟩ := h
  show FitsInt (n-1) ↔ n ≠ -2^31
  unfold FitsInt
  omega

theorem settled_slot {i : ℕ} (h : i < 64) : Settled shift32 (.slot i) := iff_of_true h trivial

variable {shift32} {rbsp : Bytes}

theorem bits_settled {b : VuiBits} (n : ℕ) : ∀ op ∈ bitsLog n b, Settled shift32 op := by
  induction n generalizing b with
  | zero => exact fun op h => absurd h List.not_mem_nil
  | succ n ih =>
    intro op hop
    rw [bitsLog] at hop
    split at hop
    · exact absurd hop List.not_mem_nil
    · rename_i hlt
      rcases List.mem_cons.mp hop with rfl | hop
      · have hle : b.size*8%2^32 ≤ b.size*8 := Nat.mod_le _ _
        exact iff_of_true (show b.bit/8 < b.size by omega) trivial
      · exact ih op hop

theorem read_settled {n : ℤ} (hn : FitsInt n) (b : VuiBits) :
    ∀ op ∈ readLog n b, Settled shift32 op := by
  intro op hop
  rcases List.mem_cons.mp hop with rfl | hop
  · exact settled_count shift32 hn
  · exact bits_settled _ op hop

theorem count_le (left count : ℕ) (b : VuiBits) : (countZeros left count b).1 ≤ count+left := by
  induction left generalizing count b with
  | zero =>
    rw [countZeros]
    dsimp only
    split
    · exact Nat.le_refl _
    · split <;> exact Nat.le_refl _
  | succ left ih =>
    rw [countZeros]
    dsimp only
    split
    · exact Nat.le_add_right _ _
    · split
      · exact Nat.le_add_right _ _
      · have hrest := ih (count+1) (readFrom 1 0 b).2
        omega

theorem zeros_settled (left : ℕ) (b : VuiBits) : ∀ op ∈ zerosLog left b, Settled shift32 op := by
  induction left generalizing b with
  | zero =>
    intro op hop
    rw [zerosLog] at hop
    split at hop
    · exact absurd hop List.not_mem_nil
    · rcases List.mem_append.mp hop with hop | hop
      · exact read_settled (by decide) b op hop
      · split at hop <;> exact absurd hop List.not_mem_nil
  | succ left ih =>
    intro op hop
    rw [zerosLog] at hop
    split at hop
    · exact absurd hop List.not_mem_nil
    · rcases List.mem_append.mp hop with hop | hop
      · exact read_settled (by decide) b op hop
      · split at hop
        · exact absurd hop List.not_mem_nil
        · exact ih _ op hop

/-- The trace runs as the walk, and each of its operations is in range just
where it is clear. -/
abbrev Tracked (shift32 : UInt32) (rbsp : Bytes) {α : Type} (t : Trace α) (p : Walk α) : Prop :=
  Traces (Settled shift32) (Placed rbsp) t p

theorem placed_keeps {α : Type} {p : Walk α} (h : Walks p) : Keeps (Placed rbsp) p :=
  fun b r hb hr => ⟨walks_within h b r hb.1 hr, hb.2⟩

theorem tracked_unnoted {α : Type} {p : Walk α} (h : Walks p) :
    Tracked shift32 rbsp (unnoted p) p := traces_unnoted (placed_keeps h)

theorem tracked_read {n : ℤ} (hn : FitsInt n) :
    Tracked shift32 rbsp (tracedRead n) (vbRead n.toNat) where
  run := rfl
  log b _ := read_settled hn b
  keeps := placed_keeps (walks_read _)

theorem tracked_ue : Tracked shift32 rbsp (tracedUe shift32) (vbUe shift32) := by
  apply traces_note
  · intro b hb op hop
    rw [List.mem_singleton.mp hop]
    exact settled_shift shift32 hb
  have hzeros : Tracked shift32 rbsp tracedZeros fun b => .ok (countZeros 32 0 b) :=
    ⟨rfl, fun b _ => zeros_settled 32 b, placed_keeps (.step .zeros)⟩
  have hcount : ∀ (b : VuiBits) (r : ℕ × VuiBits), Placed rbsp b →
      (.ok (countZeros 32 0 b) : Except Stop _) = .ok r → r.1 ≤ 32 := by
    rintro b r - ⟨⟩
    exact count_le 32 0 b
  refine traces_bind_of (Q := fun count => count ≤ 32) hcount hzeros (fun _ => rfl) fun count hle => ?_
  exact traces_bind (tracked_read (n := count) (by unfold FitsInt; omega)) fun _ => traces_pure _

theorem tracked_se : Tracked shift32 rbsp (tracedSe shift32) (vbSe shift32) :=
  traces_bind tracked_ue fun _ => traces_pure _

theorem tracked_flag : Tracked shift32 rbsp tracedFlag vbFlag :=
  traces_map (tracked_read (n := 1) (by decide))

theorem tracked_skip {n : ℤ} (hn : FitsInt n) :
    Tracked shift32 rbsp (tracedSkip n) (skipBits n.toNat) := traces_map (tracked_read hn)

theorem tracked_skip_ue : Tracked shift32 rbsp (tracedSkipUe shift32) (skipUe shift32) :=
  traces_map tracked_ue

theorem tracked_skip_se : Tracked shift32 rbsp (tracedSkipSe shift32) (skipSe shift32) :=
  traces_map tracked_se

theorem tracked_refused {α : Type} : Tracked shift32 rbsp (refused (α := α)) (throw .bad) :=
  tracked_unnoted (walks_throw .bad)

theorem tracked_aspect : Tracked shift32 rbsp tracedAspectRatio aspectRatio := by
  apply traces_bind tracked_flag
  intro present
  apply traces_optionally
  apply traces_bind (tracked_read (n := 8) (by decide))
  intro idc
  apply traces_optionally
  exact traces_then (tracked_skip (n := 16) (by decide)) (tracked_skip (n := 16) (by decide))

theorem tracked_vui : Tracked shift32 rbsp tracedVui vuiFullRangeBit := by
  have hstop : Tracked shift32 rbsp (unnoted unsignalled) unsignalled :=
    tracked_unnoted walks_unsignalled
  apply traces_bind tracked_flag
  intro vuiPresent
  refine traces_ite (fun _ => ?_) fun _ => hstop
  apply traces_then tracked_aspect
  apply traces_bind tracked_flag
  intro overscan
  apply traces_then (traces_optionally (tracked_skip (n := 1) (by decide)))
  apply traces_bind tracked_flag
  intro signal
  refine traces_ite (fun _ => ?_) fun _ => hstop
  exact traces_then (tracked_skip (n := 3) (by decide)) (tracked_unnoted walks_here)

theorem tracked_window : Tracked shift32 rbsp (tracedWindow shift32) (window shift32) := by
  apply traces_bind tracked_flag
  intro present
  exact traces_optionally (traces_loop (fun _ => tracked_skip_ue) 0 4)

theorem next_scale_bound (last delta : ℤ) :
    -255 ≤ nextScale last delta ∧ nextScale last delta ≤ 255 := by
  have hlo := Int.lt_tmod_of_pos ((last+delta+256).bmod (2^32)) (show (0 : ℤ) < 256 by decide)
  have hhi := Int.tmod_lt_of_pos ((last+delta+256).bmod (2^32)) (show (0 : ℤ) < 256 by decide)
  exact ⟨Int.add_one_le_of_lt hlo, Int.le_of_lt_add_one hhi⟩

theorem entries_run (rbsp : Bytes) (n : ℕ) (last value : ℤ) :
    Traces (fun _ => True) (Placed rbsp) (tracedEntries shift32 n last value)
      (scalingEntries shift32 n last value) := by
  have hse : Traces (fun _ => True) (Placed rbsp) (tracedSe shift32) (vbSe shift32) :=
    tracked_se.mono fun _ _ => trivial
  induction n generalizing last value with
  | zero => exact traces_pure ()
  | succ n ih =>
    refine traces_ite (fun _ => ?_) fun _ => ih _ _
    exact traces_note (fun _ _ _ _ => trivial) (traces_bind (traces_map hse) fun _ => ih _ _)

theorem tracked_entries (n : ℕ) {last value : ℤ} (hlast : -255 ≤ last ∧ last ≤ 255)
    (hvalue : -255 ≤ value ∧ value ≤ 255) :
    Tracked shift32 rbsp (tracedEntries shift32 n last value)
      (scalingEntries shift32 n last value) := by
  induction n generalizing last value with
  | zero => exact traces_pure ()
  | succ n ih =>
    have hgo : ∀ next, -255 ≤ next ∧ next ≤ 255 → Tracked shift32 rbsp
        (tracedEntries shift32 n (if next = 0 then last else next) next)
        (scalingEntries shift32 n (if next = 0 then last else next) next) := by
      intro next hnext
      apply ih _ hnext
      split
      · exact hlast
      · exact hnext
    refine traces_ite (fun _ => traces_note (fun b hb op hop => ?_) ?_) fun _ => hgo value hvalue
    · rw [List.mem_singleton.mp hop]
      exact settled_scale shift32 hb hlast
    · have hnext : ∀ (b : VuiBits) (r : ℤ × VuiBits), Placed rbsp b →
          (nextScale last <$> vbSe shift32) b = .ok r → -255 ≤ r.1 ∧ r.1 ≤ 255 := by
        intro b r _ hr
        rw [← bind_pure_comp] at hr
        obtain ⟨q, -, hq⟩ := bind_ok hr
        cases hq
        exact next_scale_bound last q.1
      exact traces_bind_of (Q := fun next => -255 ≤ next ∧ next ≤ 255) hnext (traces_map tracked_se)
        (fun _ => (entries_run rbsp n _ _).run) hgo

theorem tracked_high : Tracked shift32 rbsp (tracedHighProfile shift32) (h264HighProfile shift32) := by
  apply traces_bind tracked_ue
  intro chromaFormatIdc
  apply traces_then (traces_optionally (tracked_skip (n := 1) (by decide)))
  apply traces_then tracked_skip_ue
  apply traces_then tracked_skip_ue
  apply traces_then (tracked_skip (n := 1) (by decide))
  apply traces_bind tracked_flag
  intro matrixPresent
  apply traces_optionally
  apply traces_loop
  intro i
  apply traces_bind tracked_flag
  intro present
  exact traces_optionally (tracked_entries _ (by decide) (by decide))

theorem tracked_poc : Tracked shift32 rbsp (tracedPicOrderCnt shift32) (h264PicOrderCnt shift32) := by
  apply traces_bind tracked_ue
  intro pocType
  refine traces_ite (fun _ => tracked_skip_ue) fun _ => ?_
  refine traces_ite (fun _ => ?_) fun _ => traces_pure ()
  apply traces_then (tracked_skip (n := 1) (by decide))
  apply traces_then tracked_skip_se
  apply traces_then tracked_skip_se
  apply traces_bind tracked_ue
  intro n
  refine traces_ite (fun _ => tracked_refused) fun _ => ?_
  exact traces_loop (fun _ => tracked_skip_se) 0 n.toNat

theorem tracked_h264 : Tracked shift32 rbsp (tracedH264 shift32) (h264FullRangeBit shift32) := by
  have hone : Tracked shift32 rbsp (tracedSkip 1) (skipBits 1) := tracked_skip (by decide)
  have height : Tracked shift32 rbsp (tracedSkip 8) (skipBits 8) := tracked_skip (by decide)
  apply traces_bind (tracked_read (n := 8) (by decide))
  intro profileIdc
  apply traces_then height
  apply traces_then height
  apply traces_then tracked_skip_ue
  apply traces_then (traces_optionally tracked_high)
  apply traces_then tracked_skip_ue
  apply traces_then tracked_poc
  apply traces_then tracked_skip_ue
  apply traces_then hone
  apply traces_then tracked_skip_ue
  apply traces_then tracked_skip_ue
  apply traces_bind tracked_flag
  intro frameMbsOnly
  apply traces_then (traces_optionally hone)
  apply traces_then hone
  exact traces_then tracked_window tracked_vui

theorem tracked_layer_flags (n : ℕ) :
    Tracked shift32 rbsp (tracedLayerFlags n) (subLayerFlags n) := by
  induction n with
  | zero => exact traces_pure []
  | succ n ih =>
    apply traces_bind tracked_flag
    intro profilePresent
    apply traces_bind tracked_flag
    intro levelPresent
    exact traces_bind ih fun _ => traces_pure _

theorem tracked_layers (flags : List (Bool × Bool)) :
    Tracked shift32 rbsp (tracedLayers flags) (subLayers flags) := by
  have height : Tracked shift32 rbsp (tracedSkip 8) (skipBits 8) := tracked_skip (by decide)
  have hword : Tracked shift32 rbsp (tracedSkip 32) (skipBits 32) := tracked_skip (by decide)
  have hhalf : Tracked shift32 rbsp (tracedSkip 16) (skipBits 16) := tracked_skip (by decide)
  induction flags with
  | nil => exact traces_pure ()
  | cons flag flags ih =>
    apply traces_then (traces_optionally (traces_then height
      (traces_then hword (traces_then hword hhalf))))
    exact traces_then (traces_optionally height) ih

theorem tracked_tier_level (layers : ℕ) :
    Tracked shift32 rbsp (tracedTierLevel layers) (h265ProfileTierLevel layers) := by
  have height : Tracked shift32 rbsp (tracedSkip 8) (skipBits 8) := tracked_skip (by decide)
  have hword : Tracked shift32 rbsp (tracedSkip 32) (skipBits 32) := tracked_skip (by decide)
  have htwo : Tracked shift32 rbsp (tracedSkip 2) (skipBits 2) := tracked_skip (by decide)
  apply traces_then height
  apply traces_then hword
  apply traces_then hword
  apply traces_then (tracked_skip (n := 16) (by decide))
  apply traces_then height
  apply traces_bind (tracked_layer_flags _)
  intro flags
  apply traces_then (traces_optionally (traces_loop (fun _ => htwo) _ _))
  exact tracked_layers flags

theorem tracked_matrix (sizeId : ℕ) :
    Tracked shift32 rbsp (tracedMatrix shift32 sizeId) (scalingMatrix shift32 sizeId) := by
  apply traces_bind tracked_flag
  intro predMode
  refine traces_ite (fun _ => ?_) fun _ => tracked_skip_ue
  apply traces_then (traces_optionally tracked_skip_se)
  exact traces_loop (fun _ => tracked_skip_se) _ _

theorem tracked_scaling :
    Tracked shift32 rbsp (tracedScalingData shift32) (h265ScalingListData shift32) :=
  traces_loop (fun sizeId => traces_loop (fun _ => tracked_matrix sizeId) _ _) 0 4

theorem tracked_candidates (n kept : ℕ) :
    Tracked shift32 rbsp (tracedCandidates n kept) (keptCandidates n kept) := by
  induction n generalizing kept with
  | zero => exact traces_pure kept
  | succ n ih =>
    apply traces_bind tracked_flag
    intro used
    refine traces_ite (fun _ => ?_) fun _ => ?_
    · exact traces_bind (traces_pure true) fun _ => ih _
    · exact traces_bind tracked_flag fun _ => ih _

theorem tracked_explicit :
    Tracked shift32 rbsp (tracedExplicitSet shift32) (explicitSet shift32) := by
  have hdelta : Tracked shift32 rbsp (tracedDeltaPoc shift32) (deltaPoc shift32) :=
    traces_then tracked_skip_ue (tracked_skip (n := 1) (by decide))
  apply traces_bind tracked_ue
  intro neg
  apply traces_bind tracked_ue
  intro pos
  refine traces_ite (fun _ => tracked_refused) fun _ => ?_
  apply traces_then (traces_loop (fun _ => hdelta) _ _)
  exact traces_then (traces_loop (fun _ => hdelta) _ _) (traces_pure _)

theorem slot_noted {i : ℕ} (hi : i < 64) (b : VuiBits) (_ : Placed rbsp b) :
    ∀ op ∈ [Op.slot i], Settled shift32 op := by
  intro op hop
  rw [List.mem_singleton.mp hop]
  exact settled_slot shift32 hi

theorem tracked_set {idx : ℕ} (hidx : idx < 64) (numDeltaPocs : ℕ → ℕ) :
    Tracked shift32 rbsp (tracedRefPicSet shift32 idx numDeltaPocs)
      (h265StRefPicSet shift32 idx numDeltaPocs) := by
  have hend : ∀ count, Tracked shift32 rbsp
      (do
        note fun _ => [.slot idx]
        unnoted fun b =>
          if b.overflow then .error .bad else .ok (Function.update numDeltaPocs idx count, b))
      (fun b => if b.overflow then .error .bad
        else .ok (Function.update numDeltaPocs idx count, b)) := by
    intro count
    exact traces_note (slot_noted hidx)
      (tracked_unnoted (walks_checked fun _ => Function.update numDeltaPocs idx count))
  have hrest : ∀ interPred : Bool, Tracked shift32 rbsp
      (do
        let count ← if interPred then do
            tracedSkip 1
            tracedSkipUe shift32
            note fun _ => [.slot (idx-1)]
            tracedCandidates (numDeltaPocs (idx-1)+1) 0
          else tracedExplicitSet shift32
        note fun _ => [.slot idx]
        unnoted fun b =>
          if b.overflow then .error .bad else .ok (Function.update numDeltaPocs idx count, b))
      (do
        let count ← if interPred then do
            skipBits 1
            skipUe shift32
            keptCandidates (numDeltaPocs (idx-1)+1) 0
          else explicitSet shift32
        fun b => if b.overflow then .error .bad
          else .ok (Function.update numDeltaPocs idx count, b)) := by
    intro interPred
    refine traces_ite (fun _ => ?_) fun _ => traces_bind tracked_explicit hend
    apply traces_then (tracked_skip (n := 1) (by decide))
    apply traces_then tracked_skip_ue
    apply traces_note (slot_noted (by omega))
    exact traces_bind (tracked_candidates _ _) hend
  refine traces_ite (fun _ => ?_) fun _ => ?_
  · exact traces_bind tracked_flag hrest
  · exact traces_bind (traces_pure false) hrest

theorem tracked_sets {idx n : ℕ} (h : idx+n ≤ 64) (numDeltaPocs : ℕ → ℕ) :
    Tracked shift32 rbsp (tracedSets shift32 idx n numDeltaPocs)
      (stRefPicSets shift32 idx n numDeltaPocs) := by
  induction n generalizing idx numDeltaPocs with
  | zero => exact traces_pure ()
  | succ n ih =>
    exact traces_bind (tracked_set (by omega) numDeltaPocs) fun _ => ih (by omega) _

theorem tracked_short_term :
    Tracked shift32 rbsp (tracedShortTerm shift32) (shortTermSets shift32) := by
  apply traces_bind tracked_ue
  intro numSets
  refine traces_ite (fun _ => tracked_refused) fun hfew => tracked_sets ?_ _
  rw [Nat.zero_add]
  exact UInt32.le_iff_toNat_le.mp (UInt32.not_lt.mp hfew)

theorem ref_bits (v : UInt32) : FitsInt (refBits v) ∧ (refBits v).toNat = intCount (v+4) := by
  have hlt := (v+4).toNat_lt
  unfold refBits intCount FitsInt
  rw [Int.bmod_def]
  split <;> split <;> omega

theorem tracked_long_term (log2MaxPocLsbMinus4 : UInt32) :
    Tracked shift32 rbsp (tracedLongTerm shift32 log2MaxPocLsbMinus4)
      (longTermRefs shift32 log2MaxPocLsbMinus4) := by
  obtain ⟨hfits, hcount⟩ := ref_bits log2MaxPocLsbMinus4
  have hskip : Tracked shift32 rbsp (tracedSkip (refBits log2MaxPocLsbMinus4))
      (skipBits (intCount (log2MaxPocLsbMinus4+4))) := hcount ▸ tracked_skip hfits
  apply traces_bind tracked_ue
  intro n
  refine traces_ite (fun _ => tracked_refused) fun _ => ?_
  exact traces_loop (fun _ => traces_then hskip (tracked_skip (n := 1) (by decide))) _ _

theorem tracked_pcm : Tracked shift32 rbsp (tracedPcm shift32) (pcm shift32) := by
  have hfour : Tracked shift32 rbsp (tracedSkip 4) (skipBits 4) := tracked_skip (by decide)
  apply traces_then hfour
  apply traces_then hfour
  apply traces_then tracked_skip_ue
  exact traces_then tracked_skip_ue (tracked_skip (n := 1) (by decide))

theorem tracked_h265 : Tracked shift32 rbsp (tracedH265 shift32) (h265FullRangeBit shift32) := by
  have hone : Tracked shift32 rbsp (tracedSkip 1) (skipBits 1) := tracked_skip (by decide)
  have hue : Tracked shift32 rbsp (tracedSkipUe shift32) (skipUe shift32) := tracked_skip_ue
  apply traces_then (tracked_skip (n := 4) (by decide))
  apply traces_bind (tracked_read (n := 3) (by decide))
  intro maxSubLayersMinus1
  apply traces_then hone
  apply traces_then (tracked_tier_level _)
  apply traces_then hue
  apply traces_bind tracked_ue
  intro chromaFormatIdc
  apply traces_then (traces_optionally hone)
  apply traces_then hue
  apply traces_then hue
  apply traces_then tracked_window
  apply traces_then hue
  apply traces_then hue
  apply traces_bind tracked_ue
  intro log2MaxPocLsbMinus4
  apply traces_bind tracked_flag
  intro orderingPresent
  apply traces_then (traces_loop (fun _ => traces_then hue (traces_then hue hue)) _ _)
  apply traces_then (traces_loop (fun _ => hue) _ _)
  apply traces_bind tracked_flag
  intro scalingListEnabled
  apply traces_then (traces_optionally
    (traces_bind tracked_flag fun _ => traces_optionally tracked_scaling))
  apply traces_then hone
  apply traces_then hone
  apply traces_bind tracked_flag
  intro pcmEnabled
  apply traces_then (traces_optionally tracked_pcm)
  apply traces_then tracked_short_term
  apply traces_bind tracked_flag
  intro longTermPresent
  apply traces_then (traces_optionally (tracked_long_term log2MaxPocLsbMinus4))
  apply traces_then hone
  exact traces_then hone tracked_vui

theorem tracked_full_range (isH265 : Bool) :
    Tracked shift32 rbsp (tracedFullRange shift32 isH265) (fullRangeBit shift32 isH265) := by
  cases isH265 with
  | true => exact tracked_h265
  | false => exact tracked_h264

theorem tracked_described : Tracked shift32 rbsp tracedDescribed
    (do
      skipBits 1
      let described ← vbFlag
      if described then do
        skipBits 8
        skipBits 8
        hereUnlessOverflow
      else unsignalled) := by
  have height : Tracked shift32 rbsp (tracedSkip 8) (skipBits 8) := tracked_skip (by decide)
  apply traces_then (tracked_skip (n := 1) (by decide))
  apply traces_bind tracked_flag
  intro described
  refine traces_ite (fun _ => ?_) fun _ => tracked_unnoted walks_unsignalled
  exact traces_then height (traces_then height (tracked_unnoted walks_here))

theorem placed_at {b : VuiBits} (h : Placed rbsp b) {bit : ℕ} (hbit : bit ≤ rbsp.length*8) :
    Placed rbsp { b with bit := bit, overflow := false } :=
  ⟨⟨h.1.buf, h.1.size, hbit⟩, h.2⟩

theorem described_settled {b : VuiBits} (h : Placed rbsp b) :
    ∀ op ∈ tracedDescribed.log b, Settled shift32 op := tracked_described.log b h

theorem rbsp_settled (isH265 : Bool) (matrix : Option Byte) (hcount : rbsp.length*8 < 2^32) :
    ∀ op ∈ rbspOps shift32 isH265 matrix rbsp, Settled shift32 op := by
  have hwalk : Tracked shift32 rbsp (tracedFullRange shift32 isH265) (fullRangeBit shift32 isH265) :=
    tracked_full_range isH265
  have hstart : Placed rbsp (bitReader rbsp) := ⟨⟨rfl, rfl, Nat.zero_le _⟩, hcount⟩
  intro op hop
  rcases List.mem_append.mp hop with hop | hop
  · exact hwalk.log _ hstart op hop
  rw [hwalk.run] at hop
  cases hrun : fullRangeBit shift32 isH265 (bitReader rbsp) with
  | error stop =>
    rw [hrun] at hop
    exact absurd hop List.not_mem_nil
  | ok r =>
    rw [hrun] at hop
    obtain ⟨bit, b⟩ := r
    have hb := hwalk.keeps _ _ hstart hrun
    dsimp only at hop
    split at hop
    · exact absurd hop List.not_mem_nil
    · rename_i hbit
      cases matrix with
      | none => exact absurd hop List.not_mem_nil
      | some matrix =>
        have hflag := placed_at hb (Nat.le_of_not_le hbit)
        rcases List.mem_append.mp hop with hop | hop
        · exact described_settled hflag op hop
        · split at hop
          · exact absurd hop List.not_mem_nil
          · split at hop
            · exact absurd hop List.not_mem_nil
            · exact read_settled (by decide) _ op hop

/-- The walk of an SPS stays in range just where the bits ahead of every code
and every scaling delta, and every number of bits asked for, let it. -/
theorem sps_walk_in_range_iff (shift32 : UInt32) (isH265 : Bool) (matrix : Option Byte)
    (nal : Option Bytes) (len : UInt32) :
    (∀ op ∈ nalOps shift32 isH265 matrix nal len, InRange shift32 op) ↔
      ∀ op ∈ nalOps shift32 isH265 matrix nal len, Clear op := by
  have hall : ∀ op ∈ nalOps shift32 isH265 matrix nal len, Settled shift32 op := by
    intro op hop
    unfold nalOps at hop
    cases nal with
    | none => exact absurd hop List.not_mem_nil
    | some bytes =>
      dsimp only at hop
      split at hop
      · exact absurd hop List.not_mem_nil
      split at hop
      · exact absurd hop List.not_mem_nil
      split at hop
      · exact absurd hop List.not_mem_nil
      refine rbsp_settled isH265 matrix ?_ op hop
      have hcap := List.length_take_le vuiRbspMax
        (unescapeBytes none none (payload (headEnd isH265 bytes len.toNat) len.toNat bytes))
      have hmax : vuiRbspMax = 1024 := rfl
      unfold vuiUnescape
      omega
  exact forall₂_congr hall

instance (op : Op) : Decidable (InRange 1 op) :=
  match op with
  | .shift b => decidable_of_iff ((countZeros 32 0 b).1 < 32) (by rw [InRange])
  | .scale last b => decidable_of_iff ((countZeros 32 0 b).1 < 32 →
      FitsInt (last+deltaAt 1 b) ∧ FitsInt (last+deltaAt 1 b+256)) (by rw [InRange])
  | .count n => decidable_of_iff (FitsInt (n-1)) (by rw [InRange])
  | .byte index size => decidable_of_iff (index < size) (by rw [InRange])
  | .slot index => decidable_of_iff (index < 64) (by rw [InRange])

/-- A code of 40 zeros in a well-formed NAL. -/
theorem zeros_overshift : ¬∀ op ∈ nalOps 1 false none
    (some [0x67, 0x42, 0x00, 0x1e, 0x00, 0x00, 0x03, 0x00, 0x00, 0x03, 0x00, 0x80]) 12,
    InRange 1 op := by
  decide +kernel

end Traced

end RaptorCommon.VuiRange
