import RaptorCommon.CtrlMessages

/-!
# Requests and answers arrive as they were meant

A request is sent whole or not at all, and what arrives parses to the command
and the argument whatever bytes they hold. An answer is a complete object or
empty, and the check of its status tells the two kinds of answer apart.
-/

set_option autoImplicit false

namespace RaptorCommon.CtrlAnswers
open RaptorCommon.CText RaptorCommon.ConfigStore RaptorCommon.GuardedRun RaptorCommon.Json
open RaptorCommon.JsonParser RaptorCommon.JsonPrinter RaptorCommon.JsonPrinted
open RaptorCommon.JsonSpelling RaptorCommon.JsonGrammar RaptorCommon.JsonRoundTrip
open RaptorCommon.JsonBounds RaptorCommon.CtrlMessages
open RaptorCommon.DecimalText

variable {D : Type}

section Lookups

theorem item_found (k : CString) (v : Value D) (ms : List (CString × Value D)) :
    getObjectItemCaseSensitive (objectOf ((k, v)::ms)) k = some v := by
  rw [objectOf, getObjectItemCaseSensitive, members_list, List.find?_cons_of_pos (by simp)]
  rfl

theorem item_passed {k name : CString} (v : Value D) (ms : List (CString × Value D))
    (h : k ≠ name) : getObjectItemCaseSensitive (objectOf ((k, v)::ms)) name =
      getObjectItemCaseSensitive (objectOf ms) name := by
  simp only [objectOf, getObjectItemCaseSensitive, members_list]
  rw [List.find?_cons_of_neg (by simpa using h)]

theorem folded_found (k : CString) (v : Value D) (ms : List (CString × Value D)) :
    getObjectItem (objectOf ((k, v)::ms)) k = some v := by
  rw [objectOf, getObjectItem, members_list, List.find?_cons_of_pos (by simp [sameName])]
  rfl

def saysOk (v : Value D) : Bool :=
  valuestring (getObjectItem v (word "status")) = some (word "ok")

theorem ok_agrees : saysOk (okObject D) = true := by
  have hitem := folded_found (D := D) (word "status") (.string (word "ok")) []
  unfold saysOk okObject
  rw [hitem]
  exact decide_eq_true rfl

theorem error_denies (reason : CString) : saysOk (errorObject D reason) = false := by
  have hitem := folded_found (D := D) (word "status") (.string (word "error"))
    [(word "reason", .string reason)]
  unfold saysOk errorObject
  rw [hitem]
  have hne : word "error" ≠ word "ok" := by decide
  exact decide_eq_false fun h => hne (Option.some.inj h)

end Lookups

variable [Doubles D]

section Sendable

structure Sendable (v : Value D) (n : ℕ) : Prop where
  readable : Value.Readable v
  short : Value.Short v
  nesting : v.nesting ≤ n

theorem string_sendable (s : CString) (n : ℕ) : Sendable (.string s : Value D) n where
  readable := trivial
  short := trivial
  nesting := Nat.zero_le n

theorem int_sendable [LawfulDoubles D] {i : ℤ} (h : IsInt i) (n : ℕ) :
    Sendable (.number (Doubles.ofInt i) : Value D) n where
  readable := int_exact h
  short := by
    rw [Value.Short, int_text h]
    have := decimal_short h
    omega
  nesting := Nat.zero_le n

theorem object_sendable {members : List (CString × Value D)} {n : ℕ}
    (h : ∀ m ∈ members, Sendable m.2 n) : Sendable (objectOf members) (n+1) := by
  have hall : Members.Readable (Members.ofList members) ∧ Members.Short (Members.ofList members) ∧
      (Members.ofList members).nesting ≤ n := by
    induction members with
    | nil => exact ⟨trivial, trivial, Nat.zero_le n⟩
    | cons m ms ih =>
      obtain ⟨hr, hs, hn⟩ := ih fun x hx => h x (List.mem_cons_of_mem m hx)
      have hm := h m List.mem_cons_self
      exact ⟨⟨hm.readable, hr⟩, ⟨hm.short, hs⟩, Nat.max_le.mpr ⟨hm.nesting, hn⟩⟩
  exact ⟨hall.1, hall.2.1, Nat.succ_le_succ hall.2.2⟩

theorem array_sendable {items : List (Value D)} {n : ℕ}
    (h : ∀ v ∈ items, Sendable v n) : Sendable (.array (Items.ofList items)) (n+1) := by
  have hall : Items.Readable (Items.ofList items) ∧ Items.Short (Items.ofList items) ∧
      (Items.ofList items).nesting ≤ n := by
    induction items with
    | nil => exact ⟨trivial, trivial, Nat.zero_le n⟩
    | cons v vs ih =>
      obtain ⟨hr, hs, hn⟩ := ih fun x hx => h x (List.mem_cons_of_mem v hx)
      have hv := h v List.mem_cons_self
      exact ⟨⟨hv.readable, hr⟩, ⟨hv.short, hs⟩, Nat.max_le.mpr ⟨hv.nesting, hn⟩⟩
  exact ⟨hall.1, hall.2.1, Nat.succ_le_succ hall.2.2⟩

variable {v : Value D} {n : ℕ}

theorem sendable_print (h : Sendable v n) (hn : n ≤ nestingLimit) (buf : Bytes)
    (hsize : buf.length ≤ intMax) :
    (v.text.length+2 ≤ buf.length → ∃ cells, printPreallocated v buf = .ok cells ∧
      CString.at cells = printed v h.readable) ∧
    (buf.length < v.text.length+2 → printPreallocated v buf = refuse) := by
  have hiff := printed_iff v buf hsize
  refine ⟨fun hroom => ⟨_, hiff.1 ⟨h.nesting.trans hn, h.short, hroom⟩, ?_⟩, fun hsmall => ?_⟩
  · exact at_chars (printed v h.readable) _
  · exact hiff.2 fun hall => absurd hall.2.2 (Nat.not_le.mpr hsmall)

theorem sendable_parse (h : Sendable v n) (hn : n ≤ nestingLimit) :
    cjsonParse (printed v h.readable) = .ok v :=
  print_parse v h.readable (h.nesting.trans hn)

theorem answer_printed (h : Sendable v n) (hn : n ≤ nestingLimit) (buf : Bytes)
    (hsize : buf.length ≤ intMax) : printedOrEmpty v buf = .ok
      (if v.text.length+2 ≤ buf.length then printed v h.readable else word "") := by
  have hprint := sendable_print h hn buf hsize
  by_cases hroom : v.text.length+2 ≤ buf.length
  · obtain ⟨cells, hcells, hat⟩ := hprint.1 hroom
    rw [printedOrEmpty, hcells, if_pos hroom, ← hat]
    rfl
  · rw [printedOrEmpty, hprint.2 (Nat.lt_of_not_le hroom), if_neg hroom]
    rfl

end Sendable

section Requests

/-- The argument of a request: none, an `int`, or a string or null. -/
inductive Argument where
  | absent
  | int (key : CString) (value : {i : ℤ // IsInt i})
  | str (key : CString) (value : Option CString)

variable (D) in
def Argument.members : Argument → List (CString × Value D)
  | .absent => []
  | .int key value => [(key, .number (Doubles.ofInt value.1))]
  | .str key value => [(key, .string (value.getD (word "")))]

variable (D) in
def requestObject (cmd : CString) (arg : Argument) : Value D :=
  objectOf ((word "cmd", .string cmd)::arg.members D)

variable (D) in
def sendRequest (msg : Fin 512 → Byte) (cmd : CString) : Argument → Attempt (Option CString)
  | .absent => rssCtrlCmd D msg cmd
  | .int key value => rssCtrlCmdInt D msg cmd key value.1
  | .str key value => rssCtrlCmdStr D msg cmd key value

theorem send_request (msg : Fin 512 → Byte) (cmd : CString) (arg : Argument) :
    sendRequest D msg cmd arg = ctrlSendObj msg (requestObject D cmd arg) := by
  cases arg <;> rfl

theorem request_sendable [LawfulDoubles D] (cmd : CString) (arg : Argument) :
    Sendable (requestObject D cmd arg) 1 := by
  refine object_sendable fun m hm => ?_
  rcases List.mem_cons.mp hm with rfl | hm
  · exact string_sendable cmd 0
  · cases arg with
    | absent => exact absurd hm List.not_mem_nil
    | int key value =>
      rw [List.mem_singleton.mp hm]
      exact int_sendable value.2 0
    | str key value =>
      rw [List.mem_singleton.mp hm]
      exact string_sendable _ 0

theorem request_command (cmd : CString) (arg : Argument) :
    getObjectItemCaseSensitive (requestObject D cmd arg) (word "cmd") = some (.string cmd) := by
  exact item_found (word "cmd") (.string cmd) (arg.members D)

theorem request_argument (cmd : CString) (arg : Argument) :
    ∀ m ∈ arg.members D, m.1 ≠ word "cmd" →
      getObjectItemCaseSensitive (requestObject D cmd arg) m.1 = some m.2 := by
  intro m hm hne
  have hone : arg.members D = [m] := by
    cases arg with
    | absent => exact absurd hm List.not_mem_nil
    | int key value => rw [List.mem_singleton.mp hm, Argument.members]
    | str key value => rw [List.mem_singleton.mp hm, Argument.members]
  rw [requestObject, hone]
  exact (item_passed (.string cmd) [m] (Ne.symm hne)).trans (item_found m.1 m.2 [])

theorem request_sent [LawfulDoubles D] (msg : Fin 512 → Byte) (cmd : CString) (arg : Argument) :
    sendRequest D msg cmd arg = .ok (if (requestObject D cmd arg).text.length ≤ 510 then
      some (printed (requestObject D cmd arg) (request_sendable cmd arg).readable) else none) := by
  have hsend := request_sendable (D := D) cmd arg
  have hlen : (List.ofFn msg).length = 512 := List.length_ofFn
  have hprint := sendable_print hsend (by decide) (List.ofFn msg) (by rw [hlen]; decide)
  rw [hlen] at hprint
  split
  next hfit =>
    obtain ⟨cells, hcells, hat⟩ := hprint.1 (by omega)
    rw [send_request, ctrlSendObj, hcells, ← hat]
    rfl
  next hlong =>
    rw [send_request, ctrlSendObj, hprint.2 (by omega)]
    rfl

/-- What the accessors find in a request: the command, cut to the buffer it is
copied to, the argument, and nothing inside the command. -/
theorem request_read [LawfulDoubles D] (msg : Fin 512 → Byte) (cmd key : CString)
    (value : {i : ℤ // IsInt i}) (hkey : key ≠ word "cmd") {size : ℕ} (hsize : 1 ≤ size) {m : CString}
    (h : sendRequest D msg cmd (.int key value) = .ok (some m)) :
    rssJsonGetStr D m (word "cmd") size = .ok (some (rssStrlcpy size cmd)) ∧
      rssJsonGetInt D m key = .ok (some value.1) ∧
      rssJsonGetNestedInt D m (word "cmd") key = .ok none := by
  have hsend := request_sendable (D := D) cmd (.int key value)
  have hm : m = printed _ hsend.readable := by
    rw [request_sent] at h
    split at h
    · exact (Option.some.inj (Except.ok.inj h)).symm
    · cases h
  have hparsed : parsedItem m = .ok (some (requestObject D cmd (.int key value))) := by
    rw [hm, parsedItem, sendable_parse hsend (by decide)]
    rfl
  have hcmd := request_command (D := D) cmd (.int key value)
  have harg := request_argument (D := D) cmd (.int key value) _ (List.mem_singleton.mpr rfl) hkey
  dsimp only at harg
  refine ⟨?_, ?_, ?_⟩
  · rw [rssJsonGetStr, if_neg (by omega), hparsed, ok_bind, Option.bind_some, hcmd]
    rfl
  · rw [rssJsonGetInt, hparsed, ok_bind, Option.bind_some, harg, valueint,
      LawfulDoubles.value_int value.1 value.2]
    rfl
  · rw [rssJsonGetNestedInt, hparsed, ok_bind, Option.bind_some, hcmd]
    rfl

/-- A request is sent where its text has at most 510 characters, and what is
sent parses to the object it was built from: the receiver finds the command,
and the argument under its key, whatever bytes they are made of. -/
theorem request_arrives [LawfulDoubles D] (msg : Fin 512 → Byte) (cmd : CString) (arg : Argument) :
    ((requestObject D cmd arg).text.length ≤ 510 →
      ∃ m, sendRequest D msg cmd arg = .ok (some m) ∧
        cjsonParse m = .ok (requestObject D cmd arg)) ∧
    (510 < (requestObject D cmd arg).text.length → sendRequest D msg cmd arg = .ok none) ∧
    getObjectItemCaseSensitive (requestObject D cmd arg) (word "cmd") = some (.string cmd) ∧
    ∀ m ∈ arg.members D, m.1 ≠ word "cmd" →
      getObjectItemCaseSensitive (requestObject D cmd arg) m.1 = some m.2 := by
  refine ⟨fun hfit => ?_, fun hlong => ?_, request_command cmd arg, request_argument cmd arg⟩
  · rw [request_sent, if_pos hfit]
    exact ⟨_, rfl, sendable_parse (request_sendable cmd arg) (by decide)⟩
  · rw [request_sent, if_neg (Nat.not_le.mpr hlong)]

theorem request_arrives_sample :
    let cmd := CString.at (ascii "go")
    let arg := Argument.str (CString.at (ascii "name")) (some (CString.at [34, 44, 10]))
    let object := requestObject WholeNumber cmd arg
    (object.text.length ≤ 510 →
      ∃ m, sendRequest WholeNumber (fun _ => 7) cmd arg = .ok (some m) ∧ cjsonParse m = .ok object) ∧
    (510 < object.text.length → sendRequest WholeNumber (fun _ => 7) cmd arg = .ok none) ∧
    getObjectItemCaseSensitive object (word "cmd") = some (.string cmd) ∧
    ∀ m ∈ arg.members WholeNumber, m.1 ≠ word "cmd" →
      getObjectItemCaseSensitive object m.1 = some m.2 :=
  request_arrives (fun _ => 7) _ _

end Requests

section Status

theorem sendable_parsed {v : Value D} {n : ℕ} (h : Sendable v n) (hn : n ≤ nestingLimit) :
    parsedItem (printed v h.readable) = .ok (some v) := by
  rw [parsedItem, sendable_parse h hn]
  rfl

theorem empty_refused : (cjsonParse (word "") : Attempt (Value D)) = refuse := by
  have hskip : skipWhitespace [0] (skipBom [0]) = 0 := by decide
  rw [cjsonParse]
  show parseBuffer [0] = _
  rw [parseBuffer, if_neg (by decide), hskip, rounds, value_first (t := []) rfl (by decide)
    (by decide) (by decide)]
  rfl

theorem ok_text : (okObject D).text = lbrace::(stringText (ascii "status") ++
    colon::stringText (ascii "ok")) ++ [rbrace] := by
  simp only [okObject, objectOf, Members.ofList, Value.text, Members.text]
  rfl

theorem ok_length : (okObject D).text.length = 15 := by
  rw [ok_text]
  decide +kernel

theorem ok_sendable : Sendable (okObject D) 1 := by
  refine object_sendable fun m hm => ?_
  rw [List.mem_singleton.mp hm]
  exact string_sendable _ 0

theorem error_sendable (reason : CString) : Sendable (errorObject D reason) 1 := by
  refine object_sendable fun m hm => ?_
  rcases List.mem_cons.mp hm with rfl | hm
  · exact string_sendable _ 0
  · rw [List.mem_singleton.mp hm]
    exact string_sendable _ 0

theorem resp_ok (buf : Bytes) (hsize : buf.length ≤ intMax) : rssCtrlRespOk D buf =
    .ok (if 17 ≤ buf.length then printed (okObject D) ok_sendable.readable else word "") := by
  have hset : (buf.set 0 0).length = buf.length := List.length_set
  have hprint := answer_printed (ok_sendable (D := D)) (by decide) (buf.set 0 0) (hset.symm ▸ hsize)
  rw [hset, ok_length] at hprint
  unfold rssCtrlRespOk
  split
  next hnil =>
    rw [hnil, List.length_nil, if_neg (by omega)]
    rfl
  · exact hprint

theorem resp_error (buf : Bytes) (reason : CString) (hsize : buf.length ≤ intMax) :
    rssCtrlRespError D buf reason = .ok
      (if (errorObject D reason).text.length+2 ≤ buf.length then
        printed (errorObject D reason) (error_sendable reason).readable else word "") := by
  have hset : (buf.set 0 0).length = buf.length := List.length_set
  have hprint := answer_printed (error_sendable (D := D) reason) (by decide) (buf.set 0 0)
    (hset.symm ▸ hsize)
  rw [hset] at hprint
  unfold rssCtrlRespError
  split
  next hnil =>
    rw [hnil, List.length_nil, if_neg (by omega)]
    rfl
  · exact hprint

theorem resp_json {v : Value D} {n : ℕ} (h : Sendable v n) (hn : n ≤ nestingLimit) (buf : Bytes)
    (hsize : buf.length ≤ intMax) : rssCtrlRespJson buf v =
      if v.text.length+2 ≤ buf.length then .ok (printed v h.readable)
      else rssCtrlRespError D buf (word "response too large") := by
  have hprint := sendable_print h hn buf hsize
  by_cases hroom : v.text.length+2 ≤ buf.length
  · obtain ⟨cells, hcells, hat⟩ := hprint.1 hroom
    rw [rssCtrlRespJson, hcells, if_pos hroom, ← hat]
    rfl
  · rw [rssCtrlRespJson, hprint.2 (Nat.lt_of_not_le hroom), if_neg hroom]
    rfl

theorem printed_status {v : Value D} {n : ℕ} (h : Sendable v n) (hn : n ≤ nestingLimit) :
    rssCtrlRespIsOk D (printed v h.readable) = .ok (saysOk v) := by
  rw [rssCtrlRespIsOk, sendable_parsed h hn]
  rfl

theorem empty_status : rssCtrlRespIsOk D (word "") = .ok false := by
  rw [rssCtrlRespIsOk, parsedItem, empty_refused]
  rfl

theorem error_status (buf : Bytes) (reason : CString) (hsize : buf.length ≤ intMax) :
    (rssCtrlRespError D buf reason >>= rssCtrlRespIsOk D) = .ok false := by
  rw [resp_error buf reason hsize, ok_bind]
  split
  · rw [printed_status (error_sendable reason) (by decide), error_denies]
  · exact empty_status

theorem ok_status (buf : Bytes) (hsize : buf.length ≤ intMax) :
    (rssCtrlRespOk D buf >>= rssCtrlRespIsOk D) = .ok (decide (17 ≤ buf.length)) := by
  rw [resp_ok buf hsize, ok_bind]
  split
  next hroom => rw [printed_status ok_sendable (by decide), ok_agrees, decide_eq_true hroom]
  next hroom => rw [empty_status, decide_eq_false hroom]

def Tells (answer : Attempt CString) (v : Value D) : Prop :=
  ∃ t, answer = .ok t ∧ (cjsonParse t = .ok v ∨ t = word "")

theorem printed_tells {v : Value D} {n : ℕ} (h : Sendable v n) (hn : n ≤ nestingLimit)
    (room : Prop) [Decidable room] :
    Tells (.ok (if room then printed v h.readable else word "")) v := by
  refine ⟨_, rfl, ?_⟩
  split
  · exact .inl (sendable_parse h hn)
  · exact .inr rfl

theorem ok_tells (buf : Bytes) (hsize : buf.length ≤ intMax) :
    Tells (rssCtrlRespOk D buf) (okObject D) := by
  rw [resp_ok buf hsize]
  exact printed_tells ok_sendable (by decide) _

theorem error_tells (buf : Bytes) (reason : CString) (hsize : buf.length ≤ intMax) :
    Tells (rssCtrlRespError D buf reason) (errorObject D reason) := by
  rw [resp_error buf reason hsize]
  exact printed_tells (error_sendable reason) (by decide) _

/-- The check of an answer is true where the daemon said ok and the whole
answer fitted its buffer, and false for every error whatever its reason. What
does not fit is an error or empty. -/
theorem status_check (buf : Bytes) (hsize : buf.length ≤ intMax) :
    ((rssCtrlRespOk D buf >>= rssCtrlRespIsOk D) = .ok (decide (17 ≤ buf.length)) ∧
      Tells (rssCtrlRespOk D buf) (okObject D)) ∧
    (∀ reason, (rssCtrlRespError D buf reason >>= rssCtrlRespIsOk D) = .ok false ∧
      Tells (rssCtrlRespError D buf reason) (errorObject D reason)) ∧
    ∀ (v : Value D) (n : ℕ), Sendable v n → n ≤ nestingLimit →
      (rssCtrlRespJson buf v >>= rssCtrlRespIsOk D) =
        .ok (decide (v.text.length+2 ≤ buf.length) && saysOk v) ∧
      (v.text.length+2 ≤ buf.length → ∃ t, rssCtrlRespJson buf v = .ok t ∧ cjsonParse t = .ok v) ∧
      (buf.length < v.text.length+2 →
        Tells (rssCtrlRespJson buf v) (errorObject D (word "response too large"))) := by
  refine ⟨⟨ok_status buf hsize, ok_tells buf hsize⟩,
    fun reason => ⟨error_status buf reason hsize, error_tells buf reason hsize⟩, fun v n h hn => ?_⟩
  rw [resp_json h hn buf hsize]
  split
  next hroom =>
    refine ⟨?_, fun _ => ⟨_, rfl, sendable_parse h hn⟩, fun hsmall => by omega⟩
    rw [ok_bind, printed_status h hn, decide_eq_true hroom, Bool.true_and]
  next hroom =>
    refine ⟨?_, fun hfit => absurd hfit hroom, fun _ => error_tells buf _ hsize⟩
    rw [error_status buf _ hsize, decide_eq_false hroom, Bool.false_and]

theorem status_check_sample :
    let buf : Bytes := List.replicate 20 1
    ((rssCtrlRespOk WholeNumber buf >>= rssCtrlRespIsOk WholeNumber) =
        .ok (decide (17 ≤ buf.length)) ∧
      Tells (rssCtrlRespOk WholeNumber buf) (okObject WholeNumber)) ∧
    (∀ reason,
      (rssCtrlRespError WholeNumber buf reason >>= rssCtrlRespIsOk WholeNumber) = .ok false ∧
      Tells (rssCtrlRespError WholeNumber buf reason) (errorObject WholeNumber reason)) ∧
    ∀ (v : Value WholeNumber) (n : ℕ), Sendable v n → n ≤ nestingLimit →
      (rssCtrlRespJson buf v >>= rssCtrlRespIsOk WholeNumber) =
        .ok (decide (v.text.length+2 ≤ buf.length) && saysOk v) ∧
      (v.text.length+2 ≤ buf.length → ∃ t, rssCtrlRespJson buf v = .ok t ∧ cjsonParse t = .ok v) ∧
      (buf.length < v.text.length+2 →
        Tells (rssCtrlRespJson buf v) (errorObject WholeNumber (word "response too large"))) :=
  status_check _ (by decide)

end Status

end RaptorCommon.CtrlAnswers
