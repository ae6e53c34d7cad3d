import Mathlib.Logic.Function.Iterate
import RaptorCommon.CText

/-!
# Writing a file through a temporary one

`rss_write_file_atomic` writes beside the file and renames over it. One step is
one system call, and the answers of all the calls are given beforehand, so that
every moment of every run is an iterate of the step. A name stands for one
regular file: neither hard links nor symbolic links lead from one to another.
-/

set_option autoImplicit false

namespace RaptorCommon.AtomicWrite
open RaptorCommon.CText

abbrev Files := Bytes → Option Bytes

def tmpPath (path : Bytes) : Bytes := path ++ ascii ".tmp"

/-- A write that does not fail takes at least one byte. -/
inductive WriteAnswer where
  | wrote (more : ℕ)
  | interrupted
  | failed
  deriving DecidableEq, Repr

structure WriteAnswers where
  tmpAlloc : Bool
  openTmp : Bool
  writes : ℕ → WriteAnswer
  syncOk : Bool
  renameOk : Bool
  unlinkOk : Bool

inductive Stage where
  | start (data : Bytes)
  | writing (remaining : Bytes) (calls : ℕ)
  | syncing
  | synced
  | discarding
  | returned (ret : ℤ)
  deriving DecidableEq, Repr

/-- The next system call of `rss_write_file_atomic`. What it does to the
directory after the rename is not answered for and changes no contents. -/
def writeStep (a : WriteAnswers) (path : Bytes) (files : Files) : Stage → Files × Stage
  | .start data =>
    if a.tmpAlloc && a.openTmp then
      (Function.update files (tmpPath path) (some []), .writing data 0)
    else (files, .returned (-1))
  | .writing [] _ => (files, .syncing)
  | .writing (c::rest) calls =>
    match a.writes calls with
    | .interrupted => (files, .writing (c::rest) (calls+1))
    | .failed => (files, .discarding)
    | .wrote more =>
      (Function.update files (tmpPath path)
        ((files (tmpPath path)).map fun done => done ++ (c::rest).take (more+1)),
        .writing ((c::rest).drop (more+1)) (calls+1))
  | .syncing => (files, if a.syncOk then .synced else .discarding)
  | .synced =>
    if a.renameOk then
      (Function.update (Function.update files path (files (tmpPath path)))
        (tmpPath path) none, .returned 0)
    else (files, .discarding)
  | .discarding =>
    (if a.unlinkOk then Function.update files (tmpPath path) none else files, .returned (-1))
  | .returned ret => (files, .returned ret)

theorem path_ne_tmp (path : Bytes) : path ≠ tmpPath path := by
  intro h
  have hlen := congrArg List.length h
  rw [tmpPath, List.length_append] at hlen
  have hpos : 0 < (ascii ".tmp").length := by decide
  omega

section Invariant

variable {a : WriteAnswers} {path data : Bytes} {old : Option Bytes} {files : Files}

def Holding (path data : Bytes) (old : Option Bytes) (files : Files) : Stage → Prop
  | .start d => files path = old ∧ d = data
  | .writing remaining _ => files path = old ∧
      ∃ done, files (tmpPath path) = some done ∧ done ++ remaining = data
  | .syncing | .synced => files path = old ∧ files (tmpPath path) = some data
  | .discarding => files path = old
  | .returned ret => ret = 0 ∧ files path = some data ∨ ret = -1 ∧ files path = old

theorem tmp_frame (files : Files) (v : Option Bytes) :
    Function.update files (tmpPath path) v path = files path :=
  Function.update_of_ne (path_ne_tmp path) _ _

theorem write_step_holding {stage : Stage} (h : Holding path data old files stage) :
    Holding path data old (writeStep a path files stage).1 (writeStep a path files stage).2 := by
  cases stage with
  | start d =>
    obtain ⟨hold, rfl⟩ := h
    simp only [writeStep]
    split_ifs with ho
    · exact ⟨(tmp_frame files _).trans hold, [], Function.update_self .., rfl⟩
    · exact .inr ⟨rfl, hold⟩
  | writing remaining calls =>
    obtain ⟨hold, done, htmp, hall⟩ := h
    cases remaining with
    | nil =>
      rw [List.append_nil] at hall
      exact ⟨hold, htmp.trans (congrArg some hall)⟩
    | cons c rest =>
      simp only [writeStep]
      cases a.writes calls with
      | interrupted => exact ⟨hold, done, htmp, hall⟩
      | failed => exact hold
      | wrote more =>
        refine ⟨(tmp_frame files _).trans hold, done ++ (c::rest).take (more+1), ?_, ?_⟩
        · show Function.update files _ _ _ = _
          rw [Function.update_self, htmp]
          rfl
        · rw [List.append_assoc, List.take_append_drop, hall]
  | syncing =>
    simp only [writeStep]
    cases a.syncOk with
    | true => exact h
    | false => exact h.1
  | synced =>
    simp only [writeStep]
    split_ifs with hr
    · refine .inl ⟨rfl, ?_⟩
      show Function.update (Function.update files path _) _ _ path = _
      rw [tmp_frame, Function.update_self, h.2]
    · exact h.1
  | discarding =>
    refine .inr ⟨rfl, ?_⟩
    simp only [writeStep]
    cases a.unlinkOk with
    | true => exact (tmp_frame files _).trans h
    | false => exact h
  | returned ret => exact h

/-- Whatever the stage, the file is the old one or the new one. -/
theorem holding_whole {stage : Stage} (h : Holding path data old files stage) :
    files path = old ∨ files path = some data := by
  cases stage with
  | start d => exact .inl h.1
  | writing remaining calls => exact .inl h.1
  | syncing => exact .inl h.1
  | synced => exact .inl h.1
  | discarding => exact .inl h
  | returned ret => exact h.symm.imp And.right And.right

end Invariant

section Frame

variable {a : WriteAnswers} {path : Bytes} {files files' : Files}

def Opened : Stage → Prop
  | .writing _ _ | .syncing | .synced => True
  | _ => False

/-- Two states of the files the write cannot tell apart. -/
structure Alike (path : Bytes) (stage : Stage) (files files' : Files) : Prop where
  file : files path = files' path
  tmp : Opened stage → files (tmpPath path) = files' (tmpPath path)

theorem tmp_alike (h : files path = files' path) (v v' : Option Bytes) :
    Function.update files (tmpPath path) v path = Function.update files' (tmpPath path) v' path :=
  (tmp_frame files v).trans (h.trans (tmp_frame files' v').symm)

theorem tmp_written {v v' : Option Bytes} (h : v = v') :
    Function.update files (tmpPath path) v (tmpPath path) =
      Function.update files' (tmpPath path) v' (tmpPath path) := by
  rw [Function.update_self, Function.update_self, h]

theorem write_step_alike {stage : Stage} (h : Alike path stage files files') :
    (writeStep a path files stage).2 = (writeStep a path files' stage).2 ∧
      Alike path (writeStep a path files stage).2
        (writeStep a path files stage).1 (writeStep a path files' stage).1 := by
  cases stage with
  | start d =>
    simp only [writeStep]
    split_ifs with ho
    · exact ⟨rfl, tmp_alike h.file _ _, fun _ => tmp_written rfl⟩
    · exact ⟨rfl, h.file, fun hf => hf.elim⟩
  | writing remaining calls =>
    have htmp := h.tmp trivial
    cases remaining with
    | nil => exact ⟨rfl, h.file, fun _ => htmp⟩
    | cons c rest =>
      simp only [writeStep]
      cases a.writes calls with
      | interrupted => exact ⟨rfl, h.file, fun _ => htmp⟩
      | failed => exact ⟨rfl, h.file, fun hf => hf.elim⟩
      | wrote more =>
        exact ⟨rfl, tmp_alike h.file _ _, fun _ => tmp_written (by rw [htmp])⟩
  | syncing => exact ⟨rfl, h.file, fun _ => h.tmp trivial⟩
  | synced =>
    simp only [writeStep]
    split_ifs with hr
    · refine ⟨rfl, tmp_alike ?_ _ _, fun hf => hf.elim⟩
      rw [Function.update_self, Function.update_self, h.tmp trivial]
    · exact ⟨rfl, h.file, fun hf => hf.elim⟩
  | discarding =>
    refine ⟨rfl, ?_, fun hf => hf.elim⟩
    simp only [writeStep]
    split_ifs
    · exact tmp_alike h.file _ _
    · exact h.file
  | returned ret => exact ⟨rfl, h.file, fun hf => hf.elim⟩

end Frame

end RaptorCommon.AtomicWrite
