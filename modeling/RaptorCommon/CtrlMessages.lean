import RaptorCommon.JsonPrinted
import RaptorCommon.JsonRoundTrip
import RaptorCommon.JsonBounds

/-!
# Messages of the control socket

Requests and status answers are objects that cJSON prints and parses. A print
that is refused leaves no request, and an empty answer. Allocations succeed
here, and of a refused print nothing but its terminator is kept.
-/

set_option autoImplicit false

namespace RaptorCommon.CtrlMessages
open RaptorCommon.CText RaptorCommon.ConfigStore RaptorCommon.GuardedRun RaptorCommon.Json
open RaptorCommon.JsonParser RaptorCommon.JsonPrinter RaptorCommon.JsonPrinted
open RaptorCommon.JsonRoundTrip RaptorCommon.JsonBounds

variable {D : Type} [Doubles D]

section Items

def word (s : String) : CString := CString.at (ascii s)

def getObjectItemCaseSensitive (item : Value D) (name : CString) : Option (Value D) :=
  match item with
  | .object members => (members.toList.find? (fun m => m.1 = name)).map Prod.snd
  | _ => none

def getObjectItem (item : Value D) (name : CString) : Option (Value D) :=
  match item with
  | .object members => (members.toList.find? (fun m => sameName m.1.chars name.chars)).map Prod.snd
  | _ => none

def objectOf (members : List (CString × Value D)) : Value D := .object (Members.ofList members)

def parsedItem (text : CString) : Attempt (Option (Value D)) :=
  match cjsonParse text with
  | .ok v => pure (some v)
  | .error .refused => pure none
  | .error e => .error e

def valuestring : Option (Value D) → Option CString
  | some (.string s) => some s
  | _ => none

end Items

section Answers

/-- The string in a buffer after a print, the empty one where it is refused. -/
def printedOrEmpty (json : Value D) (buf : Bytes) : Attempt CString :=
  match printPreallocated json buf with
  | .ok cells => pure (CString.at cells)
  | .error .refused => pure (word "")
  | .error e => .error e

variable (D) in
def okObject : Value D := objectOf [(word "status", .string (word "ok"))]

variable (D) in
def errorObject (reason : CString) : Value D :=
  objectOf [(word "status", .string (word "error")), (word "reason", .string reason)]

def rssCtrlResp (buf : Bytes) (text : CString) : CString :=
  if buf = [] then word "" else (rssStrlcpy buf.length text).str

variable (D) in
def rssCtrlRespOk (buf : Bytes) : Attempt CString :=
  if buf = [] then pure (word "") else printedOrEmpty (okObject D) (buf.set 0 0)

variable (D) in
def rssCtrlRespError (buf : Bytes) (reason : CString) : Attempt CString :=
  if buf = [] then pure (word "") else printedOrEmpty (errorObject D reason) (buf.set 0 0)

def rssCtrlRespJson (buf : Bytes) (json : Value D) : Attempt CString :=
  match printPreallocated json buf with
  | .ok cells => pure (CString.at cells)
  | .error .refused => rssCtrlRespError D buf (word "response too large")
  | .error e => .error e

variable (D) in
def rssCtrlRespIsOk (resp : CString) : Attempt Bool := do
  let parsed ← parsedItem (D := D) resp
  let status := parsed.bind (fun p => getObjectItem p (word "status"))
  pure (valuestring status = some (word "ok"))

end Answers

section Requests

/-- The message that is sent, none where the print is refused. -/
def ctrlSendObj (msg : Fin 512 → Byte) (obj : Value D) : Attempt (Option CString) :=
  match printPreallocated obj (List.ofFn msg) with
  | .ok cells => pure (some (CString.at cells))
  | .error .refused => pure none
  | .error e => .error e

variable (D) in
def rssCtrlCmd (msg : Fin 512 → Byte) (cmd : CString) : Attempt (Option CString) :=
  ctrlSendObj msg (objectOf [(word "cmd", .string cmd)] : Value D)

variable (D) in
def rssCtrlCmdInt (msg : Fin 512 → Byte) (cmd key : CString) (value : ℤ) :
    Attempt (Option CString) :=
  ctrlSendObj msg
    (objectOf [(word "cmd", .string cmd), (key, .number (Doubles.ofInt value))] : Value D)

variable (D) in
def rssCtrlCmdStr (msg : Fin 512 → Byte) (cmd key : CString) (value : Option CString) :
    Attempt (Option CString) :=
  ctrlSendObj msg
    (objectOf [(word "cmd", .string cmd), (key, .string (value.getD (word "")))] : Value D)

end Requests

section Accessors

variable (D) in
def rssJsonGetStr (json key : CString) (bufSize : ℕ) : Attempt (Option (Field bufSize)) :=
  if bufSize < 1 then pure none
  else do
    let root ← parsedItem (D := D) json
    let val := root.bind (fun r => getObjectItemCaseSensitive r key)
    pure ((valuestring val).map (rssStrlcpy bufSize))

def valueint : Option (Value D) → Option ℤ
  | some (.number d) => some (Doubles.valueInt d)
  | _ => none

variable (D) in
def rssJsonGetInt (json key : CString) : Attempt (Option ℤ) := do
  let root ← parsedItem (D := D) json
  pure (valueint (root.bind (fun r => getObjectItemCaseSensitive r key)))

variable (D) in
def rssJsonGetNestedInt (json parent key : CString) : Attempt (Option ℤ) := do
  let root ← parsedItem (D := D) json
  let obj := root.bind (fun r => getObjectItemCaseSensitive r parent)
  pure (valueint (obj.bind (fun o => getObjectItemCaseSensitive o key)))

end Accessors

end RaptorCommon.CtrlMessages
