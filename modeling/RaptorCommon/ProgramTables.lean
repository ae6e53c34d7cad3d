import RaptorCommon.TransportStream

/-!
# Program tables

Sections of a transport stream, read as ISO 13818-1 lays them out: the
association table and the map table of one program, down to the descriptors.
A length that does not end where the next thing begins declines the table.
-/

set_option autoImplicit false

namespace RaptorCommon.ProgramTables
open RaptorCommon.TransportStream

def readPid (b1 b0 : UInt8) : Option ℕ :=
  if bits b1 5 3 = 7 then some (bits b1 0 5*256+b0.toNat) else none

def readLength (b1 b0 : UInt8) : Option ℕ :=
  if bits b1 4 4 = 15 ∧ bits b1 2 2 = 0 then some (bits b1 0 2*256+b0.toNat) else none

/-- The section in a packet's payload: its length field ends it, and only
stuffing follows. -/
def sectionOf : Octets → Option Octets
  | [] => none
  | pointer::rest =>
    match rest.drop pointer.toNat with
    | tableId::l1::l0::body =>
      -- the syntax indicator is set, and the bit behind it is not
      if bits l1 6 2 ≠ 2 ∨ bits l1 4 2 ≠ 3 ∨ bits l1 2 2 ≠ 0 then none
      else
        let length := bits l1 0 2*256+l0.toNat
        if length ≤ body.length ∧ Stuffing (body.drop length) then
          some (tableId::l1::l0::body.take length)
        else none
    | _ => none

structure Table where
  id : UInt8
  extension : ℕ
  version : ℕ
  current : Bool
  number : UInt8
  last : UInt8
  body : Octets
  deriving DecidableEq

def readTable : Octets → Option Table
  | tableId::_::_::e1::e0::v::number::last::rest =>
    if rest.length < 4 ∨ bits v 6 2 ≠ 3 then none
    else some
      { id := tableId
        extension := e1.toNat*256+e0.toNat
        version := bits v 1 5
        current := bits v 0 1 = 1
        number := number
        last := last
        body := rest.take (rest.length-4) }
  | _ => none

def readPrograms : Octets → Option (List (ℕ × ℕ))
  | [] => some []
  | n1::n0::p1::p0::rest =>
    (readPid p1 p0).bind fun pid => (readPrograms rest).map ((n1.toNat*256+n0.toNat, pid)::·)
  | _ => none

def readDescriptors (s : Octets) : Option (List (UInt8 × Octets)) :=
  match s with
  | [] => some []
  | [_] => none
  | tag::length::rest =>
    if length.toNat ≤ rest.length then
      (readDescriptors (rest.drop length.toNat)).map ((tag, rest.take length.toNat)::·)
    else none
termination_by s.length
decreasing_by
  simp only [List.length_drop, List.length_cons]
  omega

structure Stream where
  type : UInt8
  pid : ℕ
  descriptors : List (UInt8 × Octets)
  deriving DecidableEq

def readStreams (s : Octets) : Option (List Stream) :=
  match s with
  | [] => some []
  | type::p1::p0::l1::l0::rest =>
    (readPid p1 p0).bind fun pid => (readLength l1 l0).bind fun n =>
      if n ≤ rest.length then
        (readDescriptors (rest.take n)).bind fun descriptors =>
          (readStreams (rest.drop n)).map (⟨type, pid, descriptors⟩::·)
      else none
  | _ => none
termination_by s.length
decreasing_by
  simp only [List.length_drop, List.length_cons]
  omega

structure ProgramMap where
  program : ℕ
  pcrPid : ℕ
  info : List (UInt8 × Octets)
  streams : List Stream
  deriving DecidableEq

/-- The association table of a section, current and in one part. -/
def readAssociation (s : Octets) : Option (List (ℕ × ℕ)) :=
  (readTable s).bind fun t =>
    if t.id = 0 ∧ t.current ∧ t.number = 0 ∧ t.last = 0 then readPrograms t.body else none

def readMap (s : Octets) : Option ProgramMap :=
  (readTable s).bind fun t =>
    if t.id = 2 ∧ t.current ∧ t.number = 0 ∧ t.last = 0 then
      match t.body with
      | p1::p0::l1::l0::rest =>
        (readPid p1 p0).bind fun pcrPid => (readLength l1 l0).bind fun n =>
          if n ≤ rest.length then
            (readDescriptors (rest.take n)).bind fun info =>
              (readStreams (rest.drop n)).map (⟨t.extension, pcrPid, info, ·⟩)
          else none
      | _ => none
    else none

theorem sectionOf_stuffed {tableId l1 l0 : UInt8} {body fill : Octets} (h6 : bits l1 6 2 = 2)
    (h4 : bits l1 4 2 = 3) (h2 : bits l1 2 2 = 0)
    (hl : bits l1 0 2*256+l0.toNat = body.length) (hf : Stuffing fill) :
    sectionOf (0::tableId::l1::l0::(body ++ fill)) = some (tableId::l1::l0::body) := by
  show (if bits l1 6 2 ≠ 2 ∨ bits l1 4 2 ≠ 3 ∨ bits l1 2 2 ≠ 0 then none
    else if bits l1 0 2*256+l0.toNat ≤ (body ++ fill).length ∧
        Stuffing ((body ++ fill).drop (bits l1 0 2*256+l0.toNat)) then
      some (tableId::l1::l0::(body ++ fill).take (bits l1 0 2*256+l0.toNat)) else none) = _
  rw [if_neg (by simp [h6, h4, h2]), hl, List.drop_left' rfl, List.take_left' rfl,
    if_pos ⟨by simp, hf⟩]

theorem readTable_checked {tableId l1 l0 e1 e0 v number last : UInt8} {body crc : Octets}
    (hv : bits v 6 2 = 3) (hc : crc.length = 4) :
    readTable (tableId::l1::l0::e1::e0::v::number::last::(body ++ crc)) = some
      ⟨tableId, e1.toNat*256+e0.toNat, bits v 1 5, bits v 0 1 = 1, number, last, body⟩ := by
  have hbody : (body ++ crc).take ((body ++ crc).length-4) = body := by
    apply List.take_left'
    simp [hc]
  rw [readTable, if_neg (by simp [hv, hc]), hbody]

theorem readDescriptors_cons {tag length : UInt8} {data rest : Octets}
    {ds : List (UInt8 × Octets)} (hl : data.length = length.toNat)
    (hd : readDescriptors rest = some ds) :
    readDescriptors (tag::length::(data ++ rest)) = some ((tag, data)::ds) := by
  rw [readDescriptors, if_pos (by rw [List.length_append]; omega), List.take_left' hl,
    List.drop_left' hl, hd]
  rfl

theorem readStreams_cons {type p1 p0 l1 l0 : UInt8} {pid n : ℕ} {info rest : Octets}
    {ds : List (UInt8 × Octets)} {streams : List Stream} (hp : readPid p1 p0 = some pid)
    (hn : readLength l1 l0 = some n) (hl : info.length = n)
    (hd : readDescriptors info = some ds) (hs : readStreams rest = some streams) :
    readStreams (type::p1::p0::l1::l0::(info ++ rest)) = some (⟨type, pid, ds⟩::streams) := by
  rw [readStreams, hp, Option.bind_some, hn, Option.bind_some,
    if_pos (by rw [List.length_append]; omega), List.take_left' hl, List.drop_left' hl, hd, hs]
  rfl

theorem readMap_of {s info rest : Octets} {program version pcrPid n : ℕ} {p1 p0 l1 l0 : UInt8}
    {ds : List (UInt8 × Octets)} {streams : List Stream}
    (ht : readTable s = some
      ⟨2, program, version, true, 0, 0, p1::p0::l1::l0::(info ++ rest)⟩)
    (hp : readPid p1 p0 = some pcrPid) (hn : readLength l1 l0 = some n) (hl : info.length = n)
    (hd : readDescriptors info = some ds) (hs : readStreams rest = some streams) :
    readMap s = some ⟨program, pcrPid, ds, streams⟩ := by
  rw [readMap, ht, Option.bind_some, if_pos ⟨rfl, rfl, rfl, rfl⟩]
  dsimp only
  rw [hp, Option.bind_some, hn, Option.bind_some, if_pos (by rw [List.length_append]; omega),
    List.take_left' hl, List.drop_left' hl, hd, hs]
  rfl

end RaptorCommon.ProgramTables
