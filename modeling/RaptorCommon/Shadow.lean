import Mathlib.Data.List.GetD
import RaptorCommon.ConfigLoader

/-!
# One field of /etc/shadow

The file is read 511 characters at a time, and every stretch of a long line is
taken for a line of its own. The answers are those of the first line naming
the account as long as no such stretch comes before it and its field does not
reach into the next one.
-/

set_option autoImplicit false

namespace RaptorCommon.Shadow
open RaptorCommon.CText RaptorCommon.LineText RaptorCommon.ConfigLoader

abbrev colon : Byte := 58
abbrev dollar : Byte := 36
abbrev carriageReturn : Byte := 13

inductive ShadowState where
  | set
  | unset
  | locked
  | missing
  deriving DecidableEq

def lineSize : ℕ := 512

/-- The loop of `usable_hash`: the dollars and the place of the last one. -/
def countDollars : ℕ → ℕ → ℕ → Bytes → ℕ × ℕ
  | _, dollars, last, [] => (dollars, last)
  | i, dollars, last, c::f =>
    if c = dollar then countDollars (i+1) (dollars+1) i f else countDollars (i+1) dollars last f

def usableHash (f : CString) : Bool :=
  if f.chars.getD 0 0 ≠ dollar then false
  else
    let found := countDollars 0 0 0 f.chars
    3 ≤ found.1 && f.chars.getD (found.2+1) 0 ≠ 0

/-- The string at `p` once the next colon and the end of the line are cut off. -/
def terminated (p : Bytes) : CString :=
  let front := match cutAt colon p with
    | some (front, _) => front
    | none => p
  CString.at (front.takeWhile (fun c => c ≠ carriageReturn && c ≠ newline))

/-- The reading loop; every round takes at least one character. -/
def passwdLoop (user : CString) : ℕ → Bytes → Option CString
  | 0, _ => none
  | fuel+1, text =>
    if text = [] then none
    else
      let stored := fgets (lineSize-1) text
      let line := (CString.at stored.1).chars
      let ulen := user.chars.length
      if line.take ulen ≠ user.chars ∨ line.getD ulen 0 ≠ colon then passwdLoop user fuel stored.2
      else some (terminated (line.drop (ulen+1)))

/-- No text stands for a file that cannot be opened. -/
def passwdField (file : Option Bytes) (user : Option CString) : Option CString :=
  match user with
  | none => none
  | some user =>
    if user.chars = [] ∨ colon ∈ user.chars then none
    else match file with
      | none => none
      | some text => passwdLoop user text.length text

def rssShadowState (file : Option Bytes) (user : Option CString) : ShadowState :=
  match passwdField file user with
  | none => .missing
  | some f =>
    if f.chars = [] then .unset
    else if usableHash f then .set
    else .locked

/-- What is written to `out`, none where the answer is false. -/
def rssShadowHash (file : Option Bytes) (user : Option CString) (outsz : ℕ) : Option Bytes :=
  match passwdField file user with
  | none => none
  | some f =>
    if !usableHash f ∨ outsz ≤ f.chars.length then none
    else some (rssStrlcpy outsz f).chars

section Fields

def names (user line : Bytes) : Bool := (user++[colon]).isPrefixOf line

def fieldOf (user line : Bytes) : Bytes :=
  (line.drop (user.length+1)).takeWhile (fun c => c ≠ colon && c ≠ carriageReturn)

def Usable (f : Bytes) : Prop :=
  f.head? = some dollar ∧ 3 ≤ f.count dollar ∧ f.getLast? ≠ some dollar

instance (f : Bytes) : Decidable (Usable f) := inferInstanceAs (Decidable (_ ∧ _ ∧ _))

theorem names_iff {user line : Bytes} :
    names user line = true ↔ line.take user.length = user ∧ line.getD user.length 0 = colon := by
  rw [names, List.isPrefixOf_iff_prefix]
  constructor
  · rintro ⟨tail, rfl⟩
    simp
  · rintro ⟨hfront, hcolon⟩
    have hlt : user.length < line.length := by
      by_contra hshort
      rw [List.getD_eq_default _ _ (by omega)] at hcolon
      exact absurd hcolon (by decide)
    refine ⟨line.drop (user.length+1), ?_⟩
    have hdrop : line.drop user.length = colon::line.drop (user.length+1) := by
      rw [List.drop_eq_getElem_cons hlt, ← hcolon, List.getD_eq_getElem _ _ hlt]
    conv_rhs => rw [← List.take_append_drop user.length line]
    rw [hfront, hdrop, List.append_assoc]
    rfl

theorem names_newline (user line : Bytes) : names user (line++[newline]) = names user line := by
  rw [Bool.eq_iff_iff, names, names, List.isPrefixOf_iff_prefix, List.isPrefixOf_iff_prefix,
    List.prefix_concat_iff]
  constructor
  · rintro (h | h)
    · have hlast := congrArg List.getLast? h
      rw [List.getLast?_concat, List.getLast?_concat] at hlast
      exact absurd (Option.some.inj hlast) (by decide)
    · exact h
  · exact Or.inr

theorem names_length {user line : Bytes} (h : names user line = true) :
    user.length+1 ≤ line.length := by
  rw [names, List.isPrefixOf_iff_prefix] at h
  have hle := h.length_le
  rwa [List.length_append, List.length_singleton] at hle

theorem cut_front (c : Byte) (p : Bytes) :
    (match cutAt c p with
      | some (front, _) => front
      | none => p) = p.takeWhile (fun d => d ≠ c) := by
  induction p with
  | nil => rfl
  | cons d p ih =>
    rw [cutAt]
    by_cases hd : d = c
    · rw [if_pos hd, List.takeWhile_cons_of_neg (by simp [hd])]
    · rw [if_neg hd, List.takeWhile_cons_of_pos (by simp [hd]), ← ih]
      cases cutAt c p <;> rfl

theorem terminated_chars {p : Bytes} (hz : 0 ∉ p) : (terminated p).chars =
    (p.takeWhile (fun c => c ≠ newline)).takeWhile (fun c => c ≠ colon && c ≠ carriageReturn) := by
  have hfree : ∀ q : Byte → Bool, 0 ∉ p.takeWhile q := fun q h =>
    hz ((List.takeWhile_prefix q).subset h)
  rw [terminated, cut_front, List.takeWhile_takeWhile, at_nul_free (hfree _),
    List.takeWhile_takeWhile]
  congr 1
  apply funext
  intro c
  simp only [decide_not, Bool.decide_and, Bool.and_eq_true, Bool.decide_eq_true]
  cases decide (c = newline) <;> cases decide (c = colon) <;> cases decide (c = carriageReturn) <;> rfl

theorem stretch_field {user : Bytes} {c stored : Bytes} (hz : 0 ∉ c) (hn : newline ∉ c)
    (hstored : stored = c ∨ stored = c++[newline]) (h : names user c = true) :
    (terminated ((CString.at stored).chars.drop (user.length+1))).chars = fieldOf user c := by
  have hlen := names_length h
  have hz' : 0 ∉ stored := by
    rcases hstored with rfl | rfl
    · exact hz
    · simp [hz, show ¬(0 : Byte) = newline by decide]
  have hzd : 0 ∉ stored.drop (user.length+1) := fun h => hz' (List.mem_of_mem_drop h)
  have hline : (stored.drop (user.length+1)).takeWhile (fun c => c ≠ newline) =
      c.drop (user.length+1) := by
    have hall : ∀ d ∈ c.drop (user.length+1), decide (d ≠ newline) = true := by
      intro d hd
      apply decide_eq_true
      rintro rfl
      exact hn (List.mem_of_mem_drop hd)
    rcases hstored with rfl | rfl
    · exact List.takeWhile_eq_self_iff.mpr hall
    · rw [List.drop_append_of_le_length hlen, List.takeWhile_append_of_pos hall,
        List.takeWhile_cons_of_neg (by simp), List.append_nil]
  rw [at_nul_free hz', terminated_chars hzd, hline]
  rfl

theorem stored_names {user : Bytes} {c stored : Bytes}
    (hstored : stored = c ∨ stored = c++[newline]) : names user stored = names user c := by
  rcases hstored with rfl | rfl
  · rfl
  · exact names_newline user c

theorem count_dollars (i dollars last : ℕ) (f : Bytes) :
    (countDollars i dollars last f).1 = dollars+f.count dollar := by
  induction f generalizing i dollars last with
  | nil => rfl
  | cons c f ih =>
    rw [countDollars, List.count_cons]
    split
    next h =>
      rw [ih, if_pos (by simpa using h)]
      omega
    next h =>
      rw [ih, if_neg (by simpa using h)]
      omega

theorem no_dollar (i dollars last : ℕ) {f : Bytes} (h : dollar ∉ f) :
    (countDollars i dollars last f).2 = last := by
  induction f generalizing i with
  | nil => rfl
  | cons c f ih =>
    have hc : c ≠ dollar := fun hc => h (by simp [hc])
    rw [countDollars, if_neg hc]
    exact ih (i+1) fun hf => h (by simp [hf])

theorem last_dollar (i dollars last : ℕ) (a : Bytes) {b : Bytes} (h : dollar ∉ b) :
    (countDollars i dollars last (a ++ dollar::b)).2 = i+a.length := by
  induction a generalizing i dollars last with
  | nil => rw [List.nil_append, countDollars, if_pos rfl, no_dollar _ _ _ h, List.length_nil,
      Nat.add_zero]
  | cons c a ih =>
    rw [List.cons_append, countDollars, List.length_cons]
    split
    · rw [ih]
      omega
    · rw [ih]
      omega

theorem usable_hash (f : CString) : usableHash f = true ↔ Usable f.chars := by
  have hhead : f.chars.getD 0 0 = dollar ↔ f.chars.head? = some dollar := by
    rw [List.head?_eq_getElem?, List.getD_eq_getElem?_getD]
    cases f.chars[0]? with
    | none => decide
    | some c => simp
  by_cases hfirst : f.chars.getD 0 0 = dollar
  · obtain ⟨a, b, hrev, hb⟩ : ∃ a b, f.chars = a ++ dollar::b ∧ dollar ∉ b := by
      have hmem : dollar ∈ f.chars.reverse := by
        rw [List.mem_reverse]
        exact List.mem_of_mem_head? (hhead.mp hfirst)
      obtain ⟨b, a, hrev, hb⟩ := List.eq_append_cons_of_mem hmem
      refine ⟨a.reverse, b.reverse, ?_, by simpa using hb⟩
      rw [← List.reverse_reverse f.chars, hrev]
      simp
    have hlast : (countDollars 0 0 0 f.chars).2 = a.length := by
      rw [hrev, last_dollar _ _ _ _ hb, Nat.zero_add]
    have hbehind : f.chars.getD (a.length+1) 0 ≠ 0 ↔ f.chars.getLast? ≠ some dollar := by
      rw [hrev, List.getD_eq_getElem?_getD, List.getElem?_append_right (by omega),
        Nat.add_sub_cancel_left, List.getElem?_cons_succ]
      cases hbs : b with
      | nil => simp
      | cons c b' =>
        have hc : c ≠ 0 := by
          rintro rfl
          exact f.nul_free (by rw [hrev, hbs]; simp)
        have hend : (a ++ dollar::c::b').getLast? = (c::b').getLast? := by
          rw [List.getLast?_append_of_ne_nil _ (by simp), List.getLast?_cons_cons]
        rw [hend]
        refine ⟨?_, fun _ => by simpa using hc⟩
        rintro - hdollar
        exact hb (hbs ▸ List.mem_of_getLast? hdollar)
    have hfound : (countDollars 0 0 0 f.chars).1 = f.chars.count dollar := by
      rw [count_dollars, Nat.zero_add]
    rw [usableHash, if_neg (not_not.mpr hfirst)]
    dsimp only
    rw [hfound, hlast, Bool.and_eq_true, decide_eq_true_iff, decide_eq_true_iff, hbehind]
    exact ⟨fun h => ⟨hhead.mp hfirst, h.1, h.2⟩, fun h => h.2⟩
  · rw [usableHash, if_pos hfirst]
    refine ⟨fun h => absurd h (by decide), ?_⟩
    intro h
    exact absurd (hhead.mpr h.1) hfirst

end Fields

section Stretches

/-- The stretches of a line behind the first one. -/
def strays (l : Bytes) : List Bytes :=
  (List.range (l.length/(lineSize-1))).map fun k =>
    (l.drop ((lineSize-1)*(k+1))).take (lineSize-1)

def stretches (l : Bytes) : List Bytes := l.take (lineSize-1)::strays l

theorem strays_short {l : Bytes} (h : l.length < lineSize-1) : strays l = [] := by
  rw [strays, Nat.div_eq_of_lt h]
  rfl

theorem strays_long {l : Bytes} (h : lineSize-1 ≤ l.length) :
    strays l = stretches (l.drop (lineSize-1)) := by
  have hsize : lineSize-1 = 511 := rfl
  have hdiv : l.length/(lineSize-1) = (l.length-(lineSize-1))/(lineSize-1)+1 :=
    Nat.div_eq_sub_div (by omega) h
  rw [strays, hdiv, List.range_succ_eq_map, List.map_cons, List.map_map, stretches, strays,
    List.length_drop, Nat.zero_add, Nat.mul_one]
  congr 1
  apply List.map_congr_left
  intro k _
  have hplace : (lineSize-1)*(k.succ+1) = lineSize-1+(lineSize-1)*(k+1) := by
    rw [Nat.succ_eq_add_one, Nat.mul_add (lineSize-1) (k+1), Nat.mul_one, Nat.add_comm]
  rw [Function.comp_apply, hplace, List.drop_drop]

theorem stretch_length {l c : Bytes} (h : c ∈ stretches l) : c.length ≤ lineSize-1 := by
  rcases List.mem_cons.mp h with rfl | h
  · exact List.length_take_le _ _
  · obtain ⟨k, -, rfl⟩ := List.mem_map.mp h
    exact List.length_take_le _ _

/-- The field of a stretch that names the user. -/
def stretchField (user c : Bytes) : Option Bytes :=
  if names user c then some (fieldOf user c) else none

theorem stretch_field_nil (user : Bytes) : stretchField user [] = none := by
  rw [stretchField, if_neg]
  intro h
  exact absurd (names_length h) (by simp)

theorem passwd_round {user : CString} {fuel : ℕ} {text c rest stored : Bytes} (hz : 0 ∉ c)
    (hn : newline ∉ c) (htext : text ≠ []) (hfgets : fgets (lineSize-1) text = (stored, rest))
    (hstored : stored = c ∨ stored = c++[newline]) :
    (passwdLoop user (fuel+1) text).map (fun f => f.chars) =
      (stretchField user.chars c).or ((passwdLoop user fuel rest).map (fun f => f.chars)) := by
  have hz' : 0 ∉ stored := by
    rcases hstored with rfl | rfl
    · exact hz
    · simp [hz, show ¬(0 : Byte) = newline by decide]
  rw [passwdLoop, if_neg htext, hfgets]
  dsimp only
  rw [at_nul_free hz']
  by_cases h : names user.chars c = true
  · have hnames := names_iff.mp ((stored_names hstored).trans h)
    have hfield := stretch_field hz hn hstored h
    rw [at_nul_free hz'] at hfield
    rw [if_neg (by simpa using hnames), stretchField, if_pos h, Option.map_some, hfield]
    rfl
  · have hnames : ¬(stored.take user.chars.length = user.chars ∧
        stored.getD user.chars.length 0 = colon) := by
      intro hnames
      exact h ((stored_names hstored).symm.trans (names_iff.mpr hnames))
    rw [if_pos (by rw [not_and_or] at hnames; exact hnames), stretchField, if_neg h]
    rfl

def walkField (user text : Bytes) : Option Bytes :=
  ((pieces newline text).flatMap stretches).findSome? (stretchField user)

theorem walk_line (user l rest : Bytes) (hn : newline ∉ l) :
    walkField user (l ++ newline::rest) = (stretchField user (l.take (lineSize-1))).or
      ((strays l ++ (pieces newline rest).flatMap stretches).findSome? (stretchField user)) := by
  rw [walkField, pieces_front newline l rest hn, List.flatMap_cons, stretches, List.cons_append,
    List.findSome?_cons]
  cases stretchField user (l.take (lineSize-1)) <;> rfl

theorem walk_last (user : Bytes) {l : Bytes} (hn : newline ∉ l) :
    walkField user l =
      (stretchField user (l.take (lineSize-1))).or ((strays l).findSome? (stretchField user)) := by
  by_cases h0 : l = []
  · rw [h0, List.take_nil, stretch_field_nil, strays_short (by decide)]
    rfl
  · rw [walkField, pieces_single newline l hn h0, List.flatMap_cons, List.flatMap_nil,
      List.append_nil, stretches, List.findSome?_cons]
    cases stretchField user (l.take (lineSize-1)) <;> rfl

theorem fgets_stretch (user : Bytes) {text : Bytes} (h0 : text ≠ []) :
    ∃ c stored rest, fgets (lineSize-1) text = (stored, rest) ∧
      (stored = c ∨ stored = c++[newline]) ∧ newline ∉ c ∧ c ⊆ text ∧ rest ⊆ text ∧
      rest.length < text.length ∧
      walkField user text = (stretchField user c).or (walkField user rest) := by
  have hsize : lineSize-1 = 511 := rfl
  by_cases hn : newline ∈ text
  · obtain ⟨l, rest, rfl, hnl⟩ := List.eq_append_cons_of_mem hn
    have hfgets := fgets_line (lineSize-1) l rest hnl
    by_cases hshort : l.length < lineSize-1
    · rw [if_pos hshort] at hfgets
      refine ⟨l, _, rest, hfgets, Or.inr rfl, hnl, by simp, by simp, ?_, ?_⟩
      · rw [List.length_append, List.length_cons]
        omega
      · rw [walk_line user l rest hnl, strays_short hshort, List.take_of_length_le hshort.le]
        rfl
    · rw [if_neg hshort] at hfgets
      have hnr : newline ∉ l.drop (lineSize-1) := fun h => hnl (List.mem_of_mem_drop h)
      refine ⟨l.take (lineSize-1), _, _, hfgets, Or.inl rfl, fun h => hnl (List.mem_of_mem_take h),
        fun b hb => List.mem_append_left _ (List.mem_of_mem_take hb), ?_, ?_, ?_⟩
      · exact List.append_subset.mpr ⟨fun b hb => List.mem_append_left _ (List.mem_of_mem_drop hb),
          List.subset_append_right _ _⟩
      · rw [List.length_append, List.length_append, List.length_drop]
        omega
      · rw [walk_line user l rest hnl, strays_long (by omega), walkField,
          pieces_front newline _ rest hnr, List.flatMap_cons]
  · have hnr : newline ∉ text.drop (lineSize-1) := fun h => hn (List.mem_of_mem_drop h)
    have hlen : 0 < text.length := List.length_pos_iff.mpr h0
    refine ⟨text.take (lineSize-1), _, _, fgets_last (lineSize-1) text hn, Or.inl rfl,
      fun h => hn (List.mem_of_mem_take h), List.take_subset .., List.drop_subset .., ?_, ?_⟩
    · rw [List.length_drop]
      omega
    · rw [walk_last user hn, walk_last user hnr]
      by_cases hshort : text.length < lineSize-1
      · rw [strays_short hshort, List.drop_of_length_le hshort.le, List.take_nil,
          stretch_field_nil, strays_short (by decide)]
        rfl
      · rw [strays_long (by omega), stretches, List.findSome?_cons]
        cases stretchField user ((text.drop (lineSize-1)).take (lineSize-1)) <;> rfl

theorem passwd_loop_stretches (user : CString) (fuel : ℕ) (text : Bytes) (hz : 0 ∉ text)
    (hf : text.length ≤ fuel) : (passwdLoop user fuel text).map (fun f => f.chars) =
      walkField user.chars text := by
  induction fuel generalizing text with
  | zero =>
    have h0 : text = [] := List.eq_nil_of_length_eq_zero (by omega)
    subst h0
    rfl
  | succ fuel ih =>
    by_cases h0 : text = []
    · subst h0
      rfl
    · obtain ⟨c, stored, rest, hfgets, hstored, hn, hc, hrest, hlen, hwalk⟩ :=
        fgets_stretch user.chars h0
      rw [passwd_round (fun h => hz (hc h)) hn h0 hfgets hstored,
        ih rest (fun h => hz (hrest h)) (by omega), hwalk]

end Stretches

section Answers

def firstField (user text : Bytes) : Option Bytes :=
  ((pieces newline text).find? (names user)).map (fieldOf user)

def answered : Option Bytes → ShadowState
  | none => .missing
  | some f => if f = [] then .unset else if Usable f then .set else .locked

/-- Both functions answer from one field, or from its absence. -/
structure Answers (found : Option Bytes) (state : ShadowState) (hash : ℕ → Option Bytes) : Prop where
  answer : state = answered found
  usable : ∀ f, found = some f → Usable f → ∀ outsz, f.length < outsz → hash outsz = some f
  unusable : (∀ f, found = some f → ¬Usable f) → ∀ outsz, hash outsz = none

def SameAnswer (f g : Bytes) : Prop := f = g ∨ f ≠ [] ∧ g ≠ [] ∧ ¬Usable f ∧ ¬Usable g

instance (f g : Bytes) : Decidable (SameAnswer f g) := inferInstanceAs (Decidable (_ ∨ _))

def Agree : Option Bytes → Option Bytes → Prop
  | none, none => True
  | some f, some g => SameAnswer f g
  | _, _ => False

theorem state_field (file : Option Bytes) (user : Option CString) :
    rssShadowState file user = answered ((passwdField file user).map (fun f => f.chars)) := by
  unfold rssShadowState
  cases passwdField file user with
  | none => rfl
  | some f =>
    show _ = if f.chars = [] then ShadowState.unset else if Usable f.chars then .set else .locked
    dsimp only
    rw [if_congr (usable_hash f) rfl rfl]

theorem hash_none (file : Option Bytes) (user : Option CString) (outsz : ℕ)
    (h : ∀ f, passwdField file user = some f → ¬Usable f.chars) :
    rssShadowHash file user outsz = none := by
  unfold rssShadowHash
  cases hf : passwdField file user with
  | none => rfl
  | some f =>
    have hbad : usableHash f = false := by
      rw [Bool.eq_false_iff, ne_eq, usable_hash]
      exact h f hf
    dsimp only
    rw [if_pos (Or.inl (by rw [hbad]; rfl))]

theorem hash_some {file : Option Bytes} {user : Option CString} {f : CString} {outsz : ℕ}
    (hf : passwdField file user = some f) (h : Usable f.chars) (hout : f.chars.length < outsz) :
    rssShadowHash file user outsz = some f.chars := by
  have hgood : usableHash f = true := (usable_hash f).mpr h
  unfold rssShadowHash
  rw [hf]
  dsimp only
  rw [if_neg, strlcpy_of_fits f (by omega)]
  rw [hgood]
  simpa using hout

theorem answered_found (f : Bytes) : answered (some f) ≠ .missing := by
  rw [answered]
  split_ifs <;> decide

theorem answered_alike {f g : Bytes} (hg : ¬Usable g) (h : answered (some f) = answered (some g)) :
    SameAnswer g f := by
  rw [answered, answered, if_neg hg] at h
  by_cases hgnil : g = []
  · by_cases hfnil : f = []
    · exact Or.inl (hgnil.trans hfnil.symm)
    · rw [if_pos hgnil, if_neg hfnil] at h
      split_ifs at h
  · by_cases hfnil : f = []
    · rw [if_neg hgnil, if_pos hfnil] at h
      cases h
    · rw [if_neg hgnil, if_neg hfnil] at h
      by_cases hf : Usable f
      · rw [if_pos hf] at h
        cases h
      · exact Or.inr ⟨hgnil, hfnil, hg, hf⟩

/-- The answers are those of a field just where they are those of the field read. -/
theorem answers_agree (found : Option Bytes) (file : Option Bytes) (user : Option CString) :
    Answers found (rssShadowState file user) (rssShadowHash file user) ↔
      Agree found ((passwdField file user).map (fun f => f.chars)) := by
  rw [state_field]
  cases found with
  | none =>
    cases hf : passwdField file user with
    | none =>
      refine ⟨fun _ => trivial, fun _ => ⟨rfl, ?_, ?_⟩⟩
      · rintro f ⟨⟩
      · intro _ outsz
        exact hash_none file user outsz (by rw [hf]; rintro f ⟨⟩)
    | some f => exact ⟨fun h => answered_found f.chars h.answer, False.elim⟩
  | some g =>
    cases hf : passwdField file user with
    | none => exact ⟨fun h => answered_found g h.answer.symm, False.elim⟩
    | some f =>
      show Answers (some g) (answered (some f.chars)) _ ↔ SameAnswer g f.chars
      constructor
      · intro h
        by_cases hgood : Usable g
        · -- a buffer longer than both texts tells them apart
          have hhash := h.usable g rfl hgood (g.length+f.chars.length+1) (by omega)
          by_cases hgoodf : Usable f.chars
          · rw [hash_some hf hgoodf (by omega)] at hhash
            exact Or.inl (Option.some.inj hhash).symm
          · rw [hash_none file user _ (by rw [hf]; rintro _ ⟨⟩; exact hgoodf)] at hhash
            cases hhash
        · exact answered_alike hgood h.answer
      · rintro (rfl | ⟨hg, hfc, hbg, hbf⟩)
        · refine ⟨rfl, ?_, ?_⟩
          · rintro _ ⟨⟩ hgood outsz hout
            exact hash_some hf hgood hout
          · intro hbad outsz
            exact hash_none file user outsz (by rw [hf]; rintro _ ⟨⟩; exact hbad _ rfl)
        · refine ⟨?_, ?_, ?_⟩
          · rw [answered, answered, if_neg hg, if_neg hfc, if_neg hbg, if_neg hbf]
          · rintro _ ⟨⟩ hgood
            exact absurd hgood hbg
          · intro _ outsz
            exact hash_none file user outsz (by rw [hf]; rintro _ ⟨⟩; exact hbf)

end Answers

section Condition

/-- Reading down, a line that names the user comes before any that names it
behind a whole number of stretches, and its field fits the first stretch; or
else what is read in its place gives the same answers. -/
def Undisturbed (user : Bytes) : List Bytes → Prop
  | [] => True
  | l::rest =>
    if names user l then
      user.length < lineSize-1 ∧
        SameAnswer (fieldOf user l) ((fieldOf user l).take (lineSize-1-(user.length+1)))
    else match (strays l).find? (names user) with
      | none => Undisturbed user rest
      | some c => ∃ l', rest.find? (names user) = some l' ∧ SameAnswer (fieldOf user l') (fieldOf user c)

theorem names_take {user l : Bytes} {n : ℕ} (h : user.length < n) :
    names user (l.take n) = names user l := by
  rw [Bool.eq_iff_iff, names_iff, names_iff, List.take_take, Nat.min_eq_left h.le]
  rw [List.getD_eq_getElem?_getD, List.getD_eq_getElem?_getD, List.getElem?_take_of_lt h]

theorem take_while_take {q : Byte → Bool} (l : Bytes) (n : ℕ) :
    (l.take n).takeWhile q = (l.takeWhile q).take n := by
  induction l generalizing n with
  | nil => simp
  | cons c l ih =>
    cases n with
    | zero => rfl
    | succ n =>
      rw [List.take_succ_cons]
      by_cases hc : q c = true
      · rw [List.takeWhile_cons_of_pos hc, List.takeWhile_cons_of_pos hc, ih, List.take_succ_cons]
      · rw [List.takeWhile_cons_of_neg hc, List.takeWhile_cons_of_neg hc, List.take_nil]

theorem field_take (user l : Bytes) (n : ℕ) :
    fieldOf user (l.take n) = (fieldOf user l).take (n-(user.length+1)) := by
  rw [fieldOf, List.drop_take, take_while_take, fieldOf]

theorem stretch_find (user : Bytes) (cs : List Bytes) :
    cs.findSome? (stretchField user) = (cs.find? (names user)).map (fieldOf user) := by
  induction cs with
  | nil => rfl
  | cons c cs ih =>
    rw [List.findSome?_cons, List.find?_cons, stretchField]
    by_cases h : names user c = true
    · rw [if_pos h, h]
      rfl
    · rw [if_neg h, Bool.eq_false_iff.mpr h]
      exact ih

/-- A name as long as a stretch is found in none. -/
theorem stretch_none {user : Bytes} (h : lineSize-1 ≤ user.length) (lines : List Bytes) :
    (lines.flatMap stretches).findSome? (stretchField user) = none := by
  rw [List.findSome?_eq_none_iff]
  intro c hc
  obtain ⟨l, -, hc⟩ := List.mem_flatMap.mp hc
  have hlen := stretch_length hc
  rw [stretchField, if_neg]
  intro hnames
  have hshort := names_length hnames
  omega

theorem agree_undisturbed (user : Bytes) (lines : List Bytes) :
    Agree ((lines.find? (names user)).map (fieldOf user))
        ((lines.flatMap stretches).findSome? (stretchField user)) ↔ Undisturbed user lines := by
  induction lines with
  | nil => exact Iff.rfl
  | cons l rest ih =>
    rw [Undisturbed, List.find?_cons]
    by_cases h : names user l = true
    · rw [if_pos h, h]
      by_cases hlen : user.length < lineSize-1
      · have hfirst : names user (l.take (lineSize-1)) = true := (names_take hlen).trans h
        rw [List.flatMap_cons, stretches, List.cons_append, List.findSome?_cons, stretchField,
          if_pos hfirst, field_take]
        exact (and_iff_right hlen).symm
      · rw [stretch_none (by omega)]
        exact ⟨False.elim, fun hu => hlen hu.1⟩
    · have hfirst : ¬names user (l.take (lineSize-1)) = true := by
        intro hnames
        apply h
        have hshort := names_length hnames
        have hle := List.length_take_le (lineSize-1) l
        rwa [names_take (by omega)] at hnames
      rw [if_neg h, Bool.eq_false_iff.mpr h, List.flatMap_cons, stretches, List.cons_append,
        List.findSome?_cons, stretchField, if_neg hfirst]
      dsimp only
      rw [List.findSome?_append, stretch_find user (strays l)]
      cases (strays l).find? (names user) with
      | none => exact ih
      | some c =>
        show Agree _ (some (fieldOf user c)) ↔ _
        cases rest.find? (names user) with
        | none =>
          refine ⟨False.elim, ?_⟩
          rintro ⟨l', ⟨⟩, -⟩
        | some l' =>
          show SameAnswer (fieldOf user l') (fieldOf user c) ↔ _
          constructor
          · intro hsame
            exact ⟨l', rfl, hsame⟩
          · rintro ⟨_, ⟨⟩, hsame⟩
            exact hsame

/-- When the answers are those of the first line that names the user. -/
theorem shadow_answers_iff (text : Bytes) (user : CString) (hz : 0 ∉ text) (hne : user.chars ≠ [])
    (hcolon : colon ∉ user.chars) :
    Answers (firstField user.chars text) (rssShadowState (some text) (some user))
        (rssShadowHash (some text) (some user)) ↔
      Undisturbed user.chars (pieces newline text) := by
  have hfield : passwdField (some text) (some user) = passwdLoop user text.length text := by
    unfold passwdField
    dsimp only
    rw [if_neg (by simp [hne, hcolon])]
  rw [answers_agree, hfield, passwd_loop_stretches user _ text hz le_rfl, walkField, firstField]
  exact agree_undisturbed user.chars (pieces newline text)

/-- A long line of another account in front of the line of a locked one. -/
def longShadow : Bytes :=
  ascii "svc:" ++ List.replicate 507 120 ++ ascii "root::" ++ [newline] ++ ascii "root:*:1:" ++
    [newline]

def root : CString := CString.at (ascii "root")

/-- The locked account looks unclaimed. -/
theorem shadow_answers_long : (0 ∉ longShadow ∧ root.chars ≠ [] ∧ colon ∉ root.chars ∧
      newline ∉ root.chars) ∧
    rssShadowState (some longShadow) (some root) = .unset ∧
    answered (firstField root.chars longShadow) = .locked ∧
    ¬Answers (firstField root.chars longShadow) (rssShadowState (some longShadow) (some root))
      (rssShadowHash (some longShadow) (some root)) := by
  have hunset : rssShadowState (some longShadow) (some root) = .unset := by decide +kernel
  have hlocked : answered (firstField root.chars longShadow) = .locked := by decide +kernel
  refine ⟨by decide +kernel, hunset, hlocked, ?_⟩
  intro h
  have hanswer := h.answer
  rw [hunset, hlocked] at hanswer
  cases hanswer

def shortShadow : Bytes := ascii "bin:*:1:" ++ [newline] ++ ascii "root:*:1:"

theorem shadow_answers_short :
    Answers (firstField root.chars shortShadow) (rssShadowState (some shortShadow) (some root))
      (rssShadowHash (some shortShadow) (some root)) := by
  have hundisturbed : Undisturbed root.chars (pieces newline shortShadow) := by
    have hpieces : pieces newline shortShadow = [ascii "bin:*:1:", ascii "root:*:1:"] := by
      decide +kernel
    have hstrays : (strays (ascii "bin:*:1:")).find? (names root.chars) = none := by decide +kernel
    rw [hpieces, Undisturbed, if_neg (by decide +kernel), hstrays]
    show Undisturbed root.chars [ascii "root:*:1:"]
    rw [Undisturbed, if_pos (by decide +kernel)]
    exact ⟨by decide +kernel, by decide +kernel⟩
  exact (shadow_answers_iff shortShadow root (by decide +kernel) (by decide +kernel)
    (by decide +kernel)).mpr hundisturbed

end Condition

end RaptorCommon.Shadow
