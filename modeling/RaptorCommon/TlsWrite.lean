import Mathlib.Data.Nat.Find
import Mathlib.Logic.Function.Iterate
import RaptorCommon.CText

/-!
# Writes over a connection that asks to be called again

The TLS library takes part of a buffer, fails, or wants the socket first and
then the same call again. `rss_tls_write` loops until its buffer is taken. What
the peer is given in a session is what was written, in order and once.
-/

set_option autoImplicit false

namespace RaptorCommon.TlsWrite
open RaptorCommon.CText

inductive Wait where
  | readable
  | writable
  deriving DecidableEq

inductive SslAnswer where
  | count (n : ℕ)
  | want (w : Wait)
  | failed
  deriving DecidableEq

/-- The library with its connection, the network included. -/
structure Tls (σ : Type*) where
  sslWrite : σ → Bytes → SslAnswer × σ
  poll : Wait → σ → σ
  delivered : σ → Bytes
  pending : σ → Option Bytes

variable {σ : Type*} (L : Tls σ)

/-- A call may be made that is new, or that repeats the one left unfinished. -/
def Tls.Ready (s : σ) (data : Bytes) : Prop := L.pending s = none ∨ L.pending s = some data

/-- What the library documents of the calls it allows. -/
structure LawfulTls : Prop where
  count : ∀ {s s' : σ} {data : Bytes} {n : ℕ}, L.Ready s data →
    L.sslWrite s data = (.count n, s') →
    n ≤ data.length ∧ L.delivered s' = L.delivered s ++ data.take n ∧ L.pending s' = none
  want : ∀ {s s' : σ} {data : Bytes} {w : Wait}, L.Ready s data →
    L.sslWrite s data = (.want w, s') →
    L.delivered s' = L.delivered s ∧ L.pending s' = some data
  failed : ∀ {s s' : σ} {data : Bytes}, L.Ready s data → L.sslWrite s data = (.failed, s') →
    L.delivered s' = L.delivered s
  poll : ∀ w s, L.delivered (L.poll w s) = L.delivered s ∧ L.pending (L.poll w s) = L.pending s

structure Writing (σ : Type*) where
  tls : σ
  written : ℕ
  ret : Option ℤ

def writeStart (s : σ) : Writing σ := ⟨s, 0, none⟩

def writeStep (buf : Bytes) (w : Writing σ) : Writing σ :=
  match w.ret with
  | some _ => w
  | none =>
    if w.written < buf.length then
      match L.sslWrite w.tls (buf.drop w.written) with
      | (.want wait, s) => { w with tls := L.poll wait s }
      | (.failed, s) => { w with tls := s, ret := some (if w.written > 0 then w.written else -1) }
      | (.count n, s) => { w with tls := s, written := w.written+n }
    else { w with ret := some w.written }

def Returns (buf : Bytes) (s : σ) (r : ℤ) (s' : σ) : Prop :=
  ∃ n, ((writeStep L buf)^[n] (writeStart s)).ret = some r ∧
    ((writeStep L buf)^[n] (writeStart s)).tls = s'

section Loop

variable {L} {buf before : Bytes} {w : Writing σ}

structure Sending (L : Tls σ) (before buf : Bytes) (w : Writing σ) : Prop where
  within : w.written ≤ buf.length
  given : L.delivered w.tls = before ++ buf.take w.written
  ready : w.ret = none → L.pending w.tls = none ∨
    w.written < buf.length ∧ L.pending w.tls = some (buf.drop w.written)
  returned : ∀ r, w.ret = some r →
    w.written = buf.length ∧ r = buf.length ∧ L.pending w.tls = none ∨
      w.written < buf.length ∧ r = if 0 < w.written then (w.written : ℤ) else -1

theorem sending_start {s : σ} (h : L.pending s = none) :
    Sending L (L.delivered s) buf (writeStart s) where
  within := Nat.zero_le _
  given := (List.append_nil _).symm
  ready _ := Or.inl h
  returned _ hr := nomatch hr

theorem Sending.allowed (h : Sending L before buf w) (hret : w.ret = none) :
    L.Ready w.tls (buf.drop w.written) := (h.ready hret).imp_right And.right

theorem take_more (n k : ℕ) : buf.take n ++ (buf.drop n).take k = buf.take (n+k) :=
  List.take_add.symm

theorem sending_step (hL : LawfulTls L) (h : Sending L before buf w) :
    Sending L before buf (writeStep L buf w) := by
  unfold writeStep
  cases hret : w.ret with
  | some r => exact h
  | none =>
    have hready := h.allowed hret
    dsimp only
    split
    case isTrue hlt =>
      cases hwrite : L.sslWrite w.tls (buf.drop w.written) with
      | mk answer s =>
        cases answer with
        | want wait =>
          obtain ⟨hsame, hpend⟩ := hL.want hready hwrite
          refine ⟨h.within, ?_, fun _ => Or.inr ⟨hlt, ?_⟩, fun r hr => ?_⟩
          · rw [(hL.poll wait s).1, hsame]
            exact h.given
          · rw [(hL.poll wait s).2]
            exact hpend
          · cases hr
        | failed =>
          refine ⟨h.within, (hL.failed hready hwrite).trans h.given, nofun, fun r hr => ?_⟩
          exact Or.inr ⟨hlt, (Option.some.inj hr).symm⟩
        | count n =>
          obtain ⟨hle, hgiven, hpend⟩ := hL.count hready hwrite
          rw [List.length_drop] at hle
          refine ⟨by show w.written+n ≤ _; omega, ?_, fun _ => Or.inl hpend, fun r hr => ?_⟩
          · show L.delivered s = before ++ buf.take (w.written+n)
            rw [hgiven, h.given, List.append_assoc, take_more]
          · cases hr
    case isFalse hge =>
      have hfull : w.written = buf.length := Nat.le_antisymm h.within (Nat.not_lt.mp hge)
      have hpend : L.pending w.tls = none := (h.ready hret).resolve_right (fun hp => hge hp.1)
      refine ⟨h.within, h.given, nofun, fun r hr => Or.inl ⟨hfull, ?_, hpend⟩⟩
      rw [← Option.some.inj hr, hfull]

theorem sending_run (hL : LawfulTls L) (h : Sending L before buf w) (n : ℕ) :
    Sending L before buf ((writeStep L buf)^[n] w) := by
  induction n with
  | zero => exact h
  | succ n ih =>
    rw [Function.iterate_succ_apply']
    exact sending_step hL ih

theorem returns_sent (hL : LawfulTls L) {s s' : σ} {r : ℤ} (h : L.pending s = none)
    (hret : Returns L buf s r s') :
    ∃ n ≤ buf.length, L.delivered s' = L.delivered s ++ buf.take n ∧
      (n = buf.length ∧ r = n ∧ L.pending s' = none ∨
        n < buf.length ∧ r = if 0 < n then (n : ℤ) else -1) := by
  obtain ⟨n, hr, rfl⟩ := hret
  have hsend : Sending L (L.delivered s) buf _ := sending_run hL (sending_start h) n
  refine ⟨_, hsend.within, hsend.given, ?_⟩
  refine (hsend.returned r hr).imp (fun hfull => ⟨hfull.1, ?_, hfull.2.2⟩) id
  rw [hfull.1, hfull.2.1]

end Loop

section Ending

def again (data : Bytes) (s : σ) : σ :=
  match L.sslWrite s data with
  | (.want wait, s') => L.poll wait s'
  | (_, s') => s'

/-- The library is not asked to wait for ever, and takes something when it
answers with a count. -/
structure Live : Prop where
  answers : ∀ {s : σ} {data : Bytes}, data ≠ [] → L.Ready s data →
    ∃ k, ∀ wait, (L.sslWrite ((again L data)^[k] s) data).1 ≠ .want wait
  progress : ∀ {s s' : σ} {data : Bytes} {n : ℕ}, data ≠ [] → L.Ready s data →
    L.sslWrite s data = (.count n, s') → 0 < n

variable {L} {buf before : Bytes}

/-- As long as it is told to wait, the loop makes the one call again. -/
theorem waits_run {s : σ} {written : ℕ} (hlt : written < buf.length) (k : ℕ)
    (hwant : ∀ j < k, ∃ wait,
      (L.sslWrite ((again L (buf.drop written))^[j] s) (buf.drop written)).1 = .want wait) :
    (writeStep L buf)^[k] ⟨s, written, none⟩ =
      ⟨(again L (buf.drop written))^[k] s, written, none⟩ := by
  induction k with
  | zero => rfl
  | succ k ih =>
    obtain ⟨wait, hw⟩ := hwant k (Nat.lt_succ_self k)
    rw [Function.iterate_succ_apply', Function.iterate_succ_apply',
      ih (fun j hj => hwant j (Nat.lt_succ_of_lt hj))]
    cases hwrite : L.sslWrite ((again L (buf.drop written))^[k] s) (buf.drop written) with
    | mk answer s' =>
      rw [hwrite] at hw
      cases (show answer = .want wait from hw)
      simp only [writeStep, again, hlt, if_true, hwrite]

theorem waits_end (hlive : Live L) {s : σ} {data : Bytes} (hne : data ≠ []) (h : L.Ready s data) :
    ∃ k, (∀ j < k, ∃ wait, (L.sslWrite ((again L data)^[j] s) data).1 = .want wait) ∧
      ∀ wait, (L.sslWrite ((again L data)^[k] s) data).1 ≠ .want wait := by
  classical
  have hex := hlive.answers hne h
  refine ⟨Nat.find hex, fun j hj => ?_, Nat.find_spec hex⟩
  have hmin := Nat.find_min hex hj
  push Not at hmin
  exact hmin

theorem write_ends (hL : LawfulTls L) (hlive : Live L) {w : Writing σ}
    (h : Sending L before buf w) : ∃ n r, ((writeStep L buf)^[n] w).ret = some r := by
  induction hm : buf.length - w.written using Nat.strongRecOn generalizing w with
  | ind m ih =>
    cases w with
    | mk s written ret =>
      cases ret with
      | some r => exact ⟨0, r, rfl⟩
      | none =>
        by_cases hlt : written < buf.length
        · have hne : buf.drop written ≠ [] := List.drop_eq_nil_iff.not.mpr (Nat.not_le.mpr hlt)
          obtain ⟨k, hwaits, hanswer⟩ := waits_end hlive hne (h.allowed rfl)
          have hrun := waits_run hlt k hwaits
          have hthen := sending_run hL h k
          rw [hrun] at hthen
          have hready := hthen.allowed rfl
          generalize hs : (again L (buf.drop written))^[k] s = sk at hrun hanswer hthen hready
          cases hwrite : L.sslWrite sk (buf.drop written) with
          | mk answer s' =>
            have hnext : (writeStep L buf)^[k+1] ⟨s, written, none⟩ =
                writeStep L buf ⟨sk, written, none⟩ := by
              rw [Function.iterate_succ_apply', hrun]
            cases answer with
            | want wait => exact absurd (congrArg Prod.fst hwrite) (hanswer wait)
            | failed =>
              refine ⟨k+1, if written > 0 then written else -1, ?_⟩
              rw [hnext]
              simp only [writeStep, hlt, if_true, hwrite]
            | count n =>
              have hpos := hlive.progress hne hready hwrite
              have hmore : writeStep L buf ⟨sk, written, none⟩ = ⟨s', written+n, none⟩ := by
                simp only [writeStep, hlt, if_true, hwrite]
              have hkeep := sending_step hL hthen
              rw [hmore] at hkeep
              obtain ⟨j, r, hj⟩ := ih (buf.length - (written+n))
                (by have : buf.length - written = m := hm; omega) hkeep rfl
              refine ⟨j+(k+1), r, ?_⟩
              rw [Function.iterate_add_apply, hnext, hmore]
              exact hj
        · refine ⟨1, written, ?_⟩
          simp only [Function.iterate_one, writeStep, hlt, if_false]

end Ending

section Sessions

variable {L}

/-- Calls made one after the other on one connection, with what they returned. -/
def Session (L : Tls σ) : σ → List (Bytes × ℤ) → σ → Prop
  | s, [], s' => s' = s
  | s, (buf, r)::rest, s' => ∃ mid, Returns L buf s r mid ∧ Session L mid rest s'

theorem session_full (hL : LawfulTls L) {s s' : σ} {log : List (Bytes × ℤ)}
    (h : L.pending s = none) (hrun : Session L s log s') (hfull : ∀ c ∈ log, c.2 = c.1.length) :
    L.delivered s' = L.delivered s ++ (log.map Prod.fst).flatten ∧ L.pending s' = none := by
  induction log generalizing s with
  | nil =>
    cases hrun
    exact ⟨(List.append_nil _).symm, h⟩
  | cons c log ih =>
    obtain ⟨mid, hret, hrest⟩ := hrun
    obtain ⟨n, hn, hgiven, hend⟩ := returns_sent hL h hret
    have hc : c.2 = c.1.length := hfull c (by simp)
    have hall : n = c.1.length ∧ L.pending mid = none := by
      rcases hend with hend | hend
      · exact ⟨hend.1, hend.2.2⟩
      · have hr := hend.2
        split at hr <;> omega
    obtain ⟨hgiven', hpend⟩ := ih hall.2 hrest (fun d hd => hfull d (by simp [hd]))
    refine ⟨?_, hpend⟩
    rw [hgiven', hgiven, hall.1, List.take_length, List.append_assoc]
    rfl

/-- A session gives the peer the buffers in order, each once. Every call
returns; until one returns short the peer has all of each buffer, and of that
one the bytes counted, or none. -/
theorem session_delivers (hL : LawfulTls L) (hlive : Live L) {s : σ} (h : L.pending s = none)
    (log : List (Bytes × ℤ)) (hfull : ∀ c ∈ log, c.2 = c.1.length) {mid : σ}
    (hrun : Session L s log mid) (buf : Bytes) :
    (∀ n, ((writeStep L buf)^[n] (writeStart mid)).ret = none →
      L.Ready ((writeStep L buf)^[n] (writeStart mid)).tls
        (buf.drop ((writeStep L buf)^[n] (writeStart mid)).written)) ∧
    (∃ r s', Returns L buf mid r s') ∧
    ∀ r s', Returns L buf mid r s' → ∃ n ≤ buf.length,
      L.delivered s' = L.delivered s ++ (log.map Prod.fst).flatten ++ buf.take n ∧
      (r = buf.length ∧ n = buf.length ∨ r < buf.length ∧ r = if 0 < n then (n : ℤ) else -1) := by
  obtain ⟨hgiven, hpend⟩ := session_full hL h hrun hfull
  have hstart : Sending L (L.delivered mid) buf (writeStart mid) := sending_start hpend
  refine ⟨fun n hret => (sending_run hL hstart n).allowed hret, ?_, fun r s' hret => ?_⟩
  · obtain ⟨n, r, hr⟩ := write_ends hL hlive hstart
    exact ⟨r, _, n, hr, rfl⟩
  · obtain ⟨n, hn, hsent, hend⟩ := returns_sent hL hpend hret
    refine ⟨n, hn, by rw [hsent, hgiven], ?_⟩
    rcases hend with hend | hend
    · exact Or.inl ⟨by rw [hend.2.1, hend.1], hend.1⟩
    · refine Or.inr ⟨?_, hend.2⟩
      rw [hend.2]
      split <;> omega

end Sessions

section Sample

structure SampleNet where
  answers : List (Option (Option Wait))
  pending : Option Bytes
  delivered : Bytes
  deriving DecidableEq

def sampleWrite (s : SampleNet) (data : Bytes) : SslAnswer × SampleNet :=
  let record := (s.pending.getD data).take 3
  match s.answers with
  | some (some wait)::rest => (.want wait, ⟨rest, some data, s.delivered⟩)
  | some none::rest => (.count (min 3 data.length), ⟨rest, none, s.delivered ++ record⟩)
  | none::rest => (.failed, ⟨rest, none, s.delivered⟩)
  | [] => (.count (min 3 data.length), ⟨[], none, s.delivered ++ record⟩)

def sampleTls : Tls SampleNet := ⟨sampleWrite, fun _ s => s, (·.delivered), (·.pending)⟩

theorem sample_record {s : SampleNet} {data : Bytes} (h : sampleTls.Ready s data) :
    (s.pending.getD data).take 3 = data.take (min 3 data.length) := by
  have hdata : s.pending.getD data = data := by
    rcases h with h | h
    · rw [show s.pending = none from h, Option.getD_none]
    · rw [show s.pending = some data from h, Option.getD_some]
  rw [hdata, ← List.take_take, List.take_length]

theorem sample_lawful : LawfulTls sampleTls where
  count := by
    intro s s' data n h hwrite
    have hrecord := sample_record h
    have hwrite : sampleWrite s data = (.count n, s') := hwrite
    unfold sampleWrite at hwrite
    split at hwrite <;> cases hwrite
    · exact ⟨Nat.min_le_right _ _, by rw [← hrecord]; rfl, rfl⟩
    · exact ⟨Nat.min_le_right _ _, by rw [← hrecord]; rfl, rfl⟩
  want := by
    intro s s' data w h hwrite
    have hwrite : sampleWrite s data = (.want w, s') := hwrite
    unfold sampleWrite at hwrite
    split at hwrite <;> cases hwrite
    exact ⟨rfl, rfl⟩
  failed := by
    intro s s' data h hwrite
    have hwrite : sampleWrite s data = (.failed, s') := hwrite
    unfold sampleWrite at hwrite
    split at hwrite <;> cases hwrite
    rfl
  poll _ _ := ⟨rfl, rfl⟩

theorem sample_answers (data : Bytes) (answers : List (Option (Option Wait))) (s : SampleNet)
    (h : s.answers = answers) :
    ∃ k, ∀ wait, (sampleTls.sslWrite ((again sampleTls data)^[k] s) data).1 ≠ .want wait := by
  induction answers generalizing s with
  | nil => exact ⟨0, by simp [sampleTls, sampleWrite, h]⟩
  | cons a answers ih =>
    rcases a with _ | _ | wait
    · exact ⟨0, by simp [sampleTls, sampleWrite, h]⟩
    · exact ⟨0, by simp [sampleTls, sampleWrite, h]⟩
    · obtain ⟨k, hk⟩ := ih (again sampleTls data s) (by simp [again, sampleTls, sampleWrite, h])
      exact ⟨k+1, hk⟩

theorem sample_live : Live sampleTls where
  answers {s data} _ _ := sample_answers data s.answers s rfl
  progress := by
    intro s s' data n hne _ hwrite
    have hwrite : sampleWrite s data = (.count n, s') := hwrite
    have hlen : 0 < data.length := List.length_pos_of_ne_nil hne
    unfold sampleWrite at hwrite
    split at hwrite <;> cases hwrite <;> omega

def sampleStart : SampleNet := ⟨[some none, some (some .writable), some none, none], none, []⟩

def sampleMid : SampleNet := ⟨[some (some .writable), some none, none], none, ascii "ab"⟩

/-- Two calls, the second broken off after a wait and one record. -/
theorem session_delivers_sample :
    (∀ n, ((writeStep sampleTls (ascii "cdefg"))^[n] (writeStart sampleMid)).ret = none →
      sampleTls.Ready ((writeStep sampleTls (ascii "cdefg"))^[n] (writeStart sampleMid)).tls
        ((ascii "cdefg").drop
          ((writeStep sampleTls (ascii "cdefg"))^[n] (writeStart sampleMid)).written)) ∧
    (∃ r s', Returns sampleTls (ascii "cdefg") sampleMid r s') ∧
    ∀ r s', Returns sampleTls (ascii "cdefg") sampleMid r s' → ∃ n ≤ (ascii "cdefg").length,
      sampleTls.delivered s' = sampleTls.delivered sampleStart ++
        ([(ascii "ab", (2 : ℤ))].map Prod.fst).flatten ++ (ascii "cdefg").take n ∧
      (r = (ascii "cdefg").length ∧ n = (ascii "cdefg").length ∨
        r < (ascii "cdefg").length ∧ r = if 0 < n then (n : ℤ) else -1) := by
  have hrun : Session sampleTls sampleStart [(ascii "ab", 2)] sampleMid :=
    ⟨sampleMid, ⟨2, by decide, by decide⟩, rfl⟩
  exact session_delivers sample_lawful sample_live rfl _ (by decide) hrun (ascii "cdefg")

end Sample

end RaptorCommon.TlsWrite
