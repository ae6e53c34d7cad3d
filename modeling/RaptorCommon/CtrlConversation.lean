import RaptorCommon.CtrlProtocol

/-!
# From the client's call to its check of the answer

A request a client builds, handled by a daemon, and the answer as the client
reads it: what a daemon shows is what its config holds, and what a client set
is what a later request shows.
-/

set_option autoImplicit false

namespace RaptorCommon.CtrlConversation
open RaptorCommon.CText RaptorCommon.ConfigStore RaptorCommon.GuardedRun RaptorCommon.Json
open RaptorCommon.JsonParser RaptorCommon.JsonPrinter RaptorCommon.JsonRoundTrip
open RaptorCommon.CtrlMessages RaptorCommon.CtrlAnswers RaptorCommon.CtrlCommands
open RaptorCommon.CtrlProtocol RaptorCommon.DecimalText

variable {D : Type}

section Objects

theorem string_length (s : Bytes) : (stringText s).length = (escaped s).length+2 := by
  simp [stringText]

theorem section_agrees (sec : CString) (pairs : List (CString × CString)) :
    saysOk (sectionObject D sec pairs) = true := by
  have hitem := folded_found (D := D) (word "status") (.string (word "ok"))
    [(word "section", .string sec),
      (word "keys", objectOf (pairs.map (fun kv => (kv.1, .string kv.2))))]
  unfold saysOk sectionObject
  rw [hitem]
  exact decide_eq_true rfl

theorem section_keys (sec : CString) (pairs : List (CString × CString)) :
    getObjectItemCaseSensitive (sectionObject D sec pairs) (word "keys") =
      some (objectOf (pairs.map (fun kv => (kv.1, .string kv.2)))) := by
  rw [sectionObject, item_passed _ _ (by decide), item_passed _ _ (by decide)]
  exact item_found (word "keys") (objectOf (pairs.map (fun kv => (kv.1, .string kv.2)))) []

end Objects

variable [Doubles D]

section Dispatch

variable (D) in
def Sent (cmd : CString) (arg : Argument) : Prop := (requestObject D cmd arg).text.length ≤ 510

variable (D) in
/-- A client's call: the message it sends, handled by the daemon. -/
def ask (msg : Fin 512 → Byte) (cmd : CString) (arg : Argument) (env : Answers)
    (buf : AnswerBuffer) (d : Daemon) : Handled := do
  match ← sendRequest D msg cmd arg with
  | some m => rssCtrlHandleCommon D env buf.1 m d
  | none => pure (none, d)

/-- What the daemon does with a request is what the client asked for. -/
theorem ask_command [LawfulDoubles D] (msg : Fin 512 → Byte) {cmd : CString} {arg : Argument}
    (h : Sent D cmd arg) (env : Answers) (buf : AnswerBuffer) (d : Daemon) :
    ask D msg cmd arg env buf d = handleCommand env buf.1 (requestObject D cmd arg) cmd d := by
  have hsend := request_sendable (D := D) cmd arg
  have hcmd : stringItem (requestObject D cmd arg) (word "cmd") = some cmd := by
    rw [stringItem, request_command]
    rfl
  unfold Sent at h
  rw [ask, request_sent, if_pos h, ok_bind]
  dsimp only
  rw [rssCtrlHandleCommon, sendable_parsed hsend (by decide), ok_bind]
  dsimp only
  rw [hcmd]

theorem ask_unsent [LawfulDoubles D] (msg : Fin 512 → Byte) {cmd : CString} {arg : Argument}
    (h : ¬Sent D cmd arg) (env : Answers) (buf : AnswerBuffer) (d : Daemon) :
    ask D msg cmd arg env buf d = .ok (none, d) := by
  unfold Sent at h
  rw [ask, request_sent, if_neg h, ok_bind]
  rfl

theorem plain_sent (cmd : CString) (h : (escaped cmd.chars).length ≤ 500) :
    Sent D cmd .absent := by
  have htext : (requestObject D cmd .absent).text =
      lbrace::(stringText (ascii "cmd") ++ colon::stringText cmd.chars) ++ [rbrace] := by
    simp only [requestObject, Argument.members, objectOf, Members.ofList, Value.text, Members.text]
    rfl
  have hcmd : (stringText (ascii "cmd")).length = 5 := by decide
  rw [Sent, htext]
  simp only [List.length_append, List.length_cons, List.length_nil, hcmd, string_length]
  omega

theorem argument_sent (cmd key : CString) {v : Value D} {arg : Argument}
    (harg : arg.members D = [(key, v)])
    (h : (escaped cmd.chars).length+(escaped key.chars).length+v.text.length ≤ 490) :
    Sent D cmd arg := by
  have htext : (requestObject D cmd arg).text =
      lbrace::(stringText (ascii "cmd") ++ colon::stringText cmd.chars ++
        comma::(stringText key.chars ++ colon::v.text)) ++ [rbrace] := by
    simp only [requestObject, harg, objectOf, Members.ofList, Value.text, Members.text]
    rfl
  have hcmd : (stringText (ascii "cmd")).length = 5 := by decide
  rw [Sent, htext]
  simp only [List.length_append, List.length_cons, List.length_nil, hcmd, string_length]
  omega

theorem string_argument (cmd key value : CString) (h : key ≠ word "cmd") :
    stringItem (requestObject D cmd (.str key (some value))) key = some value := by
  have harg := request_argument (D := D) cmd (.str key (some value)) _ (List.mem_singleton.mpr rfl) h
  rw [stringItem]
  dsimp only at harg
  rw [harg]
  rfl

theorem int_argument (cmd key : CString) (value : {i : ℤ // IsInt i}) (h : key ≠ word "cmd") :
    getObjectItemCaseSensitive (requestObject D cmd (.int key value)) key =
      some (.number (Doubles.ofInt value.1)) :=
  request_argument (D := D) cmd (.int key value) _ (List.mem_singleton.mpr rfl) h

end Dispatch

section Sections

theorem json_shown {v : Value D} {n : ℕ} (h : Sendable v n) (hn : n ≤ nestingLimit)
    (hagree : saysOk v = true) (buf : AnswerBuffer) (d : Daemon) :
    ∃ answer, reply (rssCtrlRespJson buf.1 v) d = .ok (some answer, d) ∧
      rssCtrlRespIsOk D answer = .ok (decide (v.text.length+2 ≤ buf.1.length)) ∧
      (rssCtrlRespIsOk D answer = .ok true → cjsonParse answer = .ok v) := by
  rw [reply, resp_json h hn buf.1 buf.2.2]
  by_cases hroom : v.text.length+2 ≤ buf.1.length
  · rw [if_pos hroom]
    refine ⟨_, rfl, ?_, fun _ => sendable_parse h hn⟩
    rw [printed_status h hn, hagree, decide_eq_true hroom]
  · have herror := error_status (D := D) buf.1 (word "response too large") buf.2.2
    rw [resp_error buf.1 _ buf.2.2, ok_bind] at herror
    rw [if_neg hroom, resp_error buf.1 _ buf.2.2]
    refine ⟨_, rfl, ?_, fun hok => ?_⟩
    · rw [herror, decide_eq_false hroom]
    · rw [herror] at hok
      cases hok

/-- A client that asks for a section gets the pairs the config visits, in
their order, or an answer that is not ok because they do not fit. -/
theorem section_shown [LawfulDoubles D] (msg : Fin 512 → Byte) (sec : CString) (env : Answers)
    (buf : AnswerBuffer) (d : Daemon)
    (h : Sent D (word "config-get-section") (.str (word "section") (some sec))) :
    ∃ answer, ask D msg (word "config-get-section") (.str (word "section") (some sec)) env buf d
        = .ok (some answer, d) ∧
      rssCtrlRespIsOk D answer = .ok
        (decide ((sectionObject D sec (rssConfigForeach sec d.cfg)).text.length+2 ≤ buf.1.length)) ∧
      (rssCtrlRespIsOk D answer = .ok true → ∃ shown : Value D, cjsonParse answer = .ok shown ∧
        getObjectItemCaseSensitive shown (word "keys") = some (objectOf
          ((rssConfigForeach sec d.cfg).map (fun kv => (kv.1, .string kv.2))))) := by
  have hshown := section_sendable (D := D) sec (rssConfigForeach sec d.cfg)
  have hsec := string_argument (D := D) (word "config-get-section") (word "section") sec
    (by decide)
  obtain ⟨answer, hanswer, hok, hshows⟩ := json_shown hshown (by decide) (section_agrees _ _) buf d
  refine ⟨answer, ?_, hok, fun h => ⟨_, hshows h, section_keys sec _⟩⟩
  rw [ask_command msg h, handleCommand, if_pos rfl, configGetSection, hsec]
  exact hanswer

/-- Two pairs that fit, one of them set since the file was loaded. -/
theorem section_shown_sample :
    let sec := word "video"
    let pairs : List (CString × CString) :=
      [(word "gop", word "50"), (word "fps", word "25")]
    ∃ answer, ask WholeNumber (fun _ => 0) (word "config-get-section")
        (.str (word "section") (some sec)) sampleAnswers sampleBuffer sampleDaemon =
          .ok (some answer, sampleDaemon) ∧
      rssCtrlRespIsOk WholeNumber answer = .ok true ∧
      ∃ shown : Value WholeNumber, cjsonParse answer = .ok shown ∧
        getObjectItemCaseSensitive shown (word "keys") =
          some (objectOf (pairs.map (fun kv => (kv.1, .string kv.2)))) := by
  intro sec pairs
  have hpairs : rssConfigForeach sec sampleDaemon.cfg = pairs := by decide +kernel
  have hfits : (sectionObject WholeNumber sec pairs).text.length+2 ≤ sampleBuffer.1.length := by
    decide +kernel
  obtain ⟨answer, hanswer, hok, hshows⟩ := section_shown (D := WholeNumber) (fun _ => 0) sec
    sampleAnswers sampleBuffer sampleDaemon (argument_sent _ _ rfl (by rw [Value.text]; decide))
  rw [hpairs, decide_eq_true hfits] at hok
  rw [hpairs] at hshows
  exact ⟨answer, hanswer, hok, hshows hok⟩

end Sections

section Levels

theorem level_short : ∀ name ∈ levelNames, name.chars.length ≤ 5 := by decide

theorem level_cut {name v : CString} (h : name ∈ levelNames) :
    name.chars = (rssStrlcpy 16 v).chars ↔ name = v := by
  constructor
  · intro heq
    have hlen := level_short name h
    have hshort : v.chars.length ≤ 15 := by
      by_contra hlong
      rw [heq, rssStrlcpy, List.length_take] at hlen
      omega
    rw [strlcpy_of_fits v hshort] at heq
    cases name
    cases v
    simp only [CString.mk.injEq]
    exact heq
  · rintro rfl
    have hlen := level_short name h
    exact (strlcpy_of_fits name (by omega)).symm

theorem level_found {v : CString} (h : v ∈ levelNames) :
    ∃ level, levelNamed (some v) = some level ∧ levelNames.getD level (word "unknown") = v := by
  simp only [levelNames, List.mem_cons, List.not_mem_nil, or_false] at h
  rcases h with rfl | rfl | rfl | rfl | rfl | rfl
  · exact ⟨0, by decide, by decide⟩
  · exact ⟨1, by decide, by decide⟩
  · exact ⟨2, by decide, by decide⟩
  · exact ⟨3, by decide, by decide⟩
  · exact ⟨4, by decide, by decide⟩
  · exact ⟨5, by decide, by decide⟩

theorem level_missed {v : CString} (h : v ∉ levelNames) : levelNamed (some v) = none := by
  rw [levelNamed]
  refine List.findIdx?_eq_none_iff.mpr fun name hname => decide_eq_false fun heq => h ?_
  have hv : name = v := (level_cut hname).mp heq
  exact hv ▸ hname

theorem level_sent {v : CString} (h : v ∈ levelNames) :
    Sent D (word "set-log-level") (.str (word "value") (some v)) := by
  refine argument_sent _ _ rfl ?_
  simp only [levelNames, List.mem_cons, List.not_mem_nil, or_false] at h
  rcases h with rfl | rfl | rfl | rfl | rfl | rfl
  all_goals
    rw [Value.text]
    decide

theorem set_level [LawfulDoubles D] (msg : Fin 512 → Byte) {v : CString} (env : Answers)
    (buf : AnswerBuffer) (d : Daemon)
    (h : Sent D (word "set-log-level") (.str (word "value") (some v))) :
    ask D msg (word "set-log-level") (.str (word "value") (some v)) env buf d =
      match levelNamed (some v) with
      | some level => replyOk D buf.1 { d with level := level }
      | none => replyError D buf.1 (word "need value: fatal|error|warn|info|debug|trace") d := by
  have hval := string_argument (D := D) (word "set-log-level") (word "value") v (by decide)
  rw [ask_command msg h, handleCommand, if_neg (by decide), if_neg (by decide), if_neg (by decide),
    if_neg (by decide), if_neg (by decide), if_neg (by decide), if_neg (by decide), if_pos rfl,
    setLogLevel]
  exact congrArg (fun o => match levelNamed o with
    | some level => replyOk D buf.1 { d with level := level }
    | none => replyError D buf.1 (word "need value: fatal|error|warn|info|debug|trace") d) hval

/-- A level a client sets is the level a later request shows. Any other text
leaves the daemon as it was: it is answered with an error, or is too long to be
sent at all. -/
theorem level_kept [LawfulDoubles D] (msg : Fin 512 → Byte) (v : CString) (env env' : Answers)
    (buf buf' : AnswerBuffer) (d : Daemon) :
    (v ∈ levelNames → ∃ answer d',
      ask D msg (word "set-log-level") (.str (word "value") (some v)) env buf d
        = .ok (some answer, d') ∧
      rssCtrlRespIsOk D answer = .ok (decide (17 ≤ buf.1.length)) ∧
      ask D msg (word "get-log-level") .absent env' buf' d' =
        .ok (some (rssCtrlResp buf'.1 v), d')) ∧
    (v ∉ levelNames → ∃ answer,
      ask D msg (word "set-log-level") (.str (word "value") (some v)) env buf d = .ok (answer, d) ∧
      (Sent D (word "set-log-level") (.str (word "value") (some v)) →
        ∃ t, answer = some t ∧ rssCtrlRespIsOk D t = .ok false) ∧
      (¬Sent D (word "set-log-level") (.str (word "value") (some v)) → answer = none)) := by
  constructor
  · intro hv
    obtain ⟨level, hlevel, hname⟩ := level_found hv
    obtain ⟨answer, hanswer, hok⟩ := bind_ok (ok_status (D := D) buf.1 buf.2.2)
    refine ⟨answer, { d with level := level }, ?_, hok, ?_⟩
    · rw [set_level msg env buf d (level_sent hv), hlevel]
      show reply (rssCtrlRespOk D buf.1) _ = _
      rw [hanswer]
      rfl
    · rw [ask_command msg (plain_sent _ (by decide)), handleCommand, if_neg (by decide),
        if_neg (by decide), if_neg (by decide), if_neg (by decide), if_neg (by decide),
        if_neg (by decide), if_neg (by decide), if_neg (by decide), if_pos rfl, getLogLevel, hname]
      rfl
  · intro hv
    by_cases hsent : Sent D (word "set-log-level") (.str (word "value") (some v))
    · obtain ⟨answer, hanswer, hok⟩ := bind_ok (error_status (D := D) buf.1
        (word "need value: fatal|error|warn|info|debug|trace") buf.2.2)
      refine ⟨some answer, ?_, fun _ => ⟨answer, rfl, hok⟩, fun hno => absurd hsent hno⟩
      rw [set_level msg env buf d hsent, level_missed hv]
      show reply (rssCtrlRespError D buf.1 _) _ = _
      rw [hanswer]
      rfl
    · exact ⟨none, ask_unsent msg hsent env buf d, fun h => absurd h hsent, fun _ => rfl⟩

theorem level_kept_sample :
    let arg := Argument.str (word "value") (some (word "debug"))
    ∃ answer d', ask WholeNumber (fun _ => 0) (word "set-log-level") arg sampleAnswers sampleBuffer
        sampleDaemon = .ok (some answer, d') ∧
      rssCtrlRespIsOk WholeNumber answer = .ok (decide (17 ≤ sampleBuffer.1.length)) ∧
      ask WholeNumber (fun _ => 0) (word "get-log-level") .absent sampleAnswers sampleBuffer d' =
        .ok (some (rssCtrlResp sampleBuffer.1 (word "debug")), d') :=
  (level_kept (D := WholeNumber) _ (word "debug") _ _ _ _ _).1 (by decide)

end Levels

section Affinity

theorem listed_one {n : ℤ} {c : ℕ} (hn : (c : ℤ) < n) (hc : c < cpuSetSize) :
    cpusListed n (fun i => decide (i = c ∧ i < cpuSetSize)) = [c] := by
  have hfilter : cpusListed n (fun i => decide (i = c ∧ i < cpuSetSize)) =
      (List.range n.toNat).filter (fun i => i == c) := by
    refine List.filter_congr fun i _ => ?_
    by_cases hi : i = c
    · rw [hi]
      simp [hc]
    · simp [hi]
  have hmem : c ∈ List.range n.toNat := List.mem_range.mpr (by omega)
  rw [hfilter, List.filter_beq, List.count_eq_one_of_mem List.nodup_range hmem]
  rfl

def Movable (env : Answers) (c : ℤ) : Prop :=
  1 < env.ncpus.1 ∧ 0 ≤ c ∧ c < env.ncpus.1 ∧ env.setFails = none

theorem affinity_agrees (env : Answers) (cpus : ℕ → Bool) :
    saysOk (affinityObject D env cpus) = true := by
  unfold saysOk affinityObject
  rw [folded_found]
  exact decide_eq_true rfl

theorem affinity_cpus (env : Answers) (cpus : ℕ → Bool) :
    getObjectItemCaseSensitive (affinityObject D env cpus) (word "cpus") = some (.array
      (Items.ofList ((cpusListed env.ncpus.1 cpus).map
        (fun i : ℕ => .number (Doubles.ofInt (i : ℤ)))))) := by
  rw [affinityObject, item_passed _ _ (by decide), item_passed _ _ (by decide), item_found]

theorem move_handled [LawfulDoubles D] (msg : Fin 512 → Byte) (c : {i : ℤ // IsInt i})
    (env : Answers) (buf : AnswerBuffer) (d : Daemon)
    (h : Sent D (word "set-affinity") (.int (word "cpu") c)) :
    ∃ answer d', ask D msg (word "set-affinity") (.int (word "cpu") c) env buf d
        = .ok (some answer, d') ∧
      (Movable env c.1 → rssCtrlRespIsOk D answer = .ok (decide (17 ≤ buf.1.length)) ∧
        d' = { d with cpus := fun i => decide (i = c.1.toNat ∧ i < cpuSetSize) }) ∧
      (¬Movable env c.1 → d' = d ∧ rssCtrlRespIsOk D answer = .ok false) := by
  have hcpu := int_argument (D := D) (word "set-affinity") (word "cpu") c (by decide)
  have hfail : ∀ reason, ∃ answer, replyError D buf.1 reason d = .ok (some answer, d) ∧
      rssCtrlRespIsOk D answer = .ok false := by
    intro reason
    obtain ⟨answer, hanswer, hok⟩ := bind_ok (error_status (D := D) buf.1 reason buf.2.2)
    exact ⟨answer, by rw [replyError, reply, hanswer]; rfl, hok⟩
  rw [ask_command msg h, handleCommand, if_neg (by decide), if_neg (by decide), if_neg (by decide),
    if_pos rfl, setAffinity, hcpu]
  dsimp only
  rw [LawfulDoubles.cast_int c.1 c.2]
  by_cases hmove : Movable env c.1
  · obtain ⟨hmany, hpos, hlt, hset⟩ := hmove
    obtain ⟨answer, hanswer, hok⟩ := bind_ok (ok_status (D := D) buf.1 buf.2.2)
    refine ⟨answer, _, ?_, fun _ => ⟨hok, rfl⟩, fun hnot => absurd ⟨hmany, hpos, hlt, hset⟩ hnot⟩
    rw [if_neg (by omega), if_neg (by omega), hset]
    show reply (rssCtrlRespOk D buf.1) _ = _
    rw [hanswer]
    rfl
  · have herror : ∃ answer, (if env.ncpus.1 ≤ 1 then
        replyError D buf.1 (word "single-core system") d
        else if c.1 < 0 ∨ env.ncpus.1 ≤ c.1 then
          replyError D buf.1 (word "cpu out of range") d
        else match env.setFails with
          | some reason => replyError D buf.1 reason d
          | none => replyOk D buf.1
            { d with cpus := fun i => decide (i = c.1.toNat ∧ i < cpuSetSize) }) =
        .ok (some answer, d) ∧ rssCtrlRespIsOk D answer = .ok false := by
      split
      · exact hfail _
      split
      · exact hfail _
      cases hset : env.setFails with
      | some reason => exact hfail reason
      | none => exact absurd ⟨by omega, by omega, by omega, hset⟩ hmove
    obtain ⟨answer, hanswer, hok⟩ := herror
    exact ⟨answer, d, hanswer, fun h => absurd h hmove, fun _ => ⟨rfl, hok⟩⟩

/-- A processor a client moves a daemon to is the one a later request lists;
a move that cannot be made changes nothing and is answered with an error. -/
theorem affinity_kept [LawfulDoubles D] (msg : Fin 512 → Byte) (c : {i : ℤ // IsInt i})
    (env env' : Answers) (buf buf' : AnswerBuffer) (d : Daemon)
    (h : Sent D (word "set-affinity") (.int (word "cpu") c)) :
    ∃ answer d', ask D msg (word "set-affinity") (.int (word "cpu") c) env buf d
        = .ok (some answer, d') ∧
      (¬Movable env c.1 → d' = d ∧ rssCtrlRespIsOk D answer = .ok false) ∧
      (Movable env c.1 → c.1 < env'.ncpus.1 → c.1 < cpuSetSize → env'.getFails = none →
        ∃ listed, ask D msg (word "get-affinity") .absent env' buf' d' = .ok (some listed, d') ∧
          (rssCtrlRespIsOk D listed = .ok true → ∃ shown : Value D, cjsonParse listed = .ok shown ∧
            getObjectItemCaseSensitive shown (word "cpus") =
              some (.array (.cons (.number (Doubles.ofInt c.1)) .nil)))) := by
  obtain ⟨answer, d', hrun, hmoved, hstuck⟩ := move_handled msg c env buf d h
  refine ⟨answer, d', hrun, hstuck, fun hmove hlt hroom hget => ?_⟩
  obtain ⟨_, rfl⟩ := hmoved hmove
  have hpos := hmove.2.1
  have hlist := listed_one (n := env'.ncpus.1) (c := c.1.toNat) (by omega) (by omega)
  obtain ⟨listed, hlisted, _, hshows⟩ := json_shown (D := D) (affinity_sendable env' _) (by decide)
    (affinity_agrees env' _) buf' { d with cpus := fun i => decide (i = c.1.toNat ∧ i < cpuSetSize) }
  refine ⟨listed, ?_, fun hok => ⟨_, hshows hok, ?_⟩⟩
  · rw [ask_command msg (plain_sent _ (by decide)), handleCommand, if_neg (by decide),
      if_neg (by decide), if_neg (by decide), if_neg (by decide), if_pos rfl, getAffinity, hget]
    exact hlisted
  · rw [affinity_cpus, hlist, List.map_singleton, Int.toNat_of_nonneg hpos]
    rfl

theorem affinity_kept_sample :
    let c : {i : ℤ // IsInt i} := ⟨1, by decide⟩
    ∃ answer d', ask WholeNumber (fun _ => 0) (word "set-affinity") (.int (word "cpu") c)
        sampleAnswers sampleBuffer sampleDaemon = .ok (some answer, d') ∧
      (¬Movable sampleAnswers c.1 →
        d' = sampleDaemon ∧ rssCtrlRespIsOk WholeNumber answer = .ok false) ∧
      (Movable sampleAnswers c.1 → c.1 < sampleAnswers.ncpus.1 → c.1 < cpuSetSize →
        sampleAnswers.getFails = none →
        ∃ listed, ask WholeNumber (fun _ => 0) (word "get-affinity") .absent sampleAnswers
            sampleBuffer d' = .ok (some listed, d') ∧
          (rssCtrlRespIsOk WholeNumber listed = .ok true →
            ∃ shown : Value WholeNumber, cjsonParse listed = .ok shown ∧
              getObjectItemCaseSensitive shown (word "cpus") =
                some (.array (.cons (.number (Doubles.ofInt c.1)) .nil)))) :=
  affinity_kept _ _ _ _ _ _ _ (argument_sent _ _ rfl (by rw [Value.text]; decide))

end Affinity

end RaptorCommon.CtrlConversation
