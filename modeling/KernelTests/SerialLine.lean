import KernelTests.BuildStorm.Newlines
import KernelTests.CAgent.Interleaving
import KernelTests.CString

/-!
# Stray bytes on the serial line

The judges are given the bytes of a serial line.  Both read standard input strictly, so
a single byte that is not part of encoded text leaves no results; a file is read with
such bytes left out.
-/

namespace KernelTests.SerialLine

open Python

variable {α β : Type}

/-! ## Lines between other output -/

/-- Other output, and lines that are each followed by other output. -/
def interleave (text : α → List β) (first : List β) (pieces : List (α × List β)) : List β :=
  first ++ pieces.flatMap fun p ↦ text p.1 ++ p.2

theorem interleave_cons (text : α → List β) (first : List β) (p : α × List β)
    (pieces : List (α × List β)) : interleave text first (p :: pieces) =
      first ++ (text p.1 ++ interleave text p.2 pieces) := by
  simp [interleave]

/-- The lines alone. -/
def bare (pieces : List (α × List β)) : List (α × List β) := pieces.map fun p ↦ (p.1, [])

theorem map_bare {γ : Type} (f : α → γ) (pieces : List (α × List β)) :
    ((bare pieces).map fun p ↦ f p.1) = pieces.map fun p ↦ f p.1 := by
  rw [bare, List.map_map]
  rfl

/-- The other output is encoded text. -/
def encodePieces (pieces : List (α × Str)) : List (α × Bytes) := pieces.map (Prod.map id encode)

theorem encodePieces_cons (a : α) (s : Str) (pieces : List (α × Str)) :
    encodePieces ((a, s) :: pieces) = (a, encode s) :: encodePieces pieces := rfl

theorem encodePieces_bare (pieces : List (α × Str)) :
    encodePieces (bare pieces) = bare (encodePieces pieces) := by
  rw [encodePieces, bare, encodePieces, bare, List.map_map, List.map_map]
  rfl

theorem encode_interleave (text : α → Str) (first : Str) (pieces : List (α × Str)) :
    encode (interleave text first pieces) =
      interleave (fun a ↦ encode (text a)) (encode first) (encodePieces pieces) := by
  induction pieces generalizing first with
  | nil => simp [interleave, encodePieces]
  | cons p pieces ih =>
      rw [interleave_cons, encode_append, encode_append, ih, encodePieces_cons, interleave_cons]

/-- Bytes with lines in them are encoded text only if the bytes between the lines are. -/
theorem exists_of_encode_eq_interleave {text : α → Str} (htext : ∀ a, text a ≠ []) {first : Bytes}
    {pieces : List (α × Bytes)} {s : Str}
    (h : encode s = interleave (fun a ↦ encode (text a)) first pieces) :
    ∃ first' pieces', encode first' = first ∧ encodePieces pieces' = pieces := by
  induction pieces generalizing first s with
  | nil => exact ⟨s, [], by simpa [interleave] using h, rfl⟩
  | cons p pieces ih =>
      rw [interleave_cons] at h
      obtain ⟨first', t, hfirst, ht, rfl⟩ := encode_eq_append_encode (htext p.1) h
      obtain ⟨u, pieces', hu, hpieces'⟩ := ih ht
      exact ⟨first', (p.1, u) :: pieces', hfirst, by rw [encodePieces_cons, hpieces', hu]⟩

theorem exists_encodePieces {pieces : List (α × Bytes)}
    (h : ∀ s ∈ pieces.map Prod.snd, IsUtf8 s) : ∃ pieces', encodePieces pieces' = pieces := by
  induction pieces with
  | nil => exact ⟨[], rfl⟩
  | cons p pieces ih =>
      obtain ⟨⟨u, hu⟩, hpieces⟩ := List.forall_mem_cons.mp h
      obtain ⟨pieces', hpieces'⟩ := ih hpieces
      exact ⟨(p.1, u) :: pieces', by rw [encodePieces_cons, hpieces', hu]⟩

/-- A log: lines of a test script between other output, which contains none of the words `markers`
and may be any bytes otherwise. -/
structure Log (text : α → Str) (markers : List Str) where
  first : Bytes
  pieces : List (α × Bytes)
  markerless : ∀ s ∈ first :: pieces.map Prod.snd, ∀ w ∈ markers, ¬ encode w <:+: s

namespace Log

variable {text : α → Str} {markers : List Str} (log : Log text markers)

/-- The log as it comes from the serial line. -/
def bytes : Bytes := interleave (fun a ↦ encode (text a)) log.first log.pieces

/-- The log reduced to its lines. -/
def reduced : Bytes := interleave (fun a ↦ encode (text a)) [] (bare log.pieces)

/-- The bytes between the lines. -/
def strays : List Bytes := log.first :: log.pieces.map Prod.snd

theorem isUtf8_strays_iff : (∀ s ∈ log.strays, IsUtf8 s) ↔
    ∃ first' pieces', encode first' = log.first ∧ encodePieces pieces' = log.pieces := by
  rw [strays, List.forall_mem_cons]
  constructor
  · rintro ⟨⟨first', hfirst⟩, hpieces⟩
    obtain ⟨pieces', hpieces'⟩ := exists_encodePieces hpieces
    exact ⟨first', pieces', hfirst, hpieces'⟩
  · rintro ⟨first', pieces', hfirst, hpieces⟩
    refine ⟨⟨first', hfirst⟩, fun s hs ↦ ?_⟩
    rw [← hpieces, encodePieces, List.map_map, List.mem_map] at hs
    obtain ⟨p, _, rfl⟩ := hs
    exact ⟨p.2, rfl⟩

/-- The log is encoded text exactly if the bytes between its lines are. -/
theorem isUtf8_bytes_iff (htext : ∀ a, text a ≠ []) :
    IsUtf8 log.bytes ↔ ∀ s ∈ log.strays, IsUtf8 s := by
  rw [isUtf8_strays_iff]
  constructor
  · rintro ⟨s, hs⟩
    exact exists_of_encode_eq_interleave htext hs
  · rintro ⟨first', pieces', hfirst, hpieces⟩
    exact ⟨interleave text first' pieces', by rw [encode_interleave, hfirst, hpieces, bytes]⟩

variable {γ : Type} {judge : Str → γ}

/-- A judge that sees only the lines, on a log that is encoded text. -/
theorem decode_of_isUtf8
    (hjudge : ∀ first pieces, (∀ s ∈ first :: pieces.map Prod.snd, ∀ w ∈ markers, ¬ w <:+: s) →
      judge (interleave text first pieces) = judge (interleave text [] (bare pieces)))
    (h : ∀ s ∈ log.strays, IsUtf8 s) :
    ∃ s, encode s = log.bytes ∧ (decode log.reduced).map judge = some (judge s) := by
  obtain ⟨first', pieces', hfirst, hpieces⟩ := log.isUtf8_strays_iff.mp h
  have hmarkerless : ∀ s ∈ first' :: pieces'.map Prod.snd, ∀ w ∈ markers, ¬ w <:+: s := by
    intro s hs w hw
    refine not_infix_of_encode (log.markerless (encode s) ?_ w hw)
    rw [← hfirst, ← hpieces, encodePieces, List.map_map]
    have hmem := List.mem_map_of_mem (f := encode) hs
    rwa [List.map_cons, List.map_map] at hmem
  have hreduced : log.reduced = encode (interleave text [] (bare pieces')) := by
    rw [reduced, encode_interleave, encodePieces_bare, hpieces]
    rfl
  refine ⟨interleave text first' pieces', ?_, ?_⟩
  · rw [encode_interleave, hfirst, hpieces, bytes]
  · rw [hreduced, decode_encode, Option.map_some, hjudge _ _ hmarkerless]

theorem isUtf8_reduced : IsUtf8 log.reduced := by
  refine ⟨interleave text [] (log.pieces.map fun p ↦ (p.1, [])), ?_⟩
  rw [encode_interleave, reduced, encodePieces, List.map_map]
  rfl

/-- Standard input of a judge that sees only the lines. -/
theorem map_decode_eq_iff (htext : ∀ a, text a ≠ [])
    (hjudge : ∀ first pieces, (∀ s ∈ first :: pieces.map Prod.snd, ∀ w ∈ markers, ¬ w <:+: s) →
      judge (interleave text first pieces) = judge (interleave text [] (bare pieces))) :
    (decode log.bytes).map judge = (decode log.reduced).map judge ↔
      ∀ s ∈ log.strays, IsUtf8 s := by
  constructor
  · intro h
    rw [← isUtf8_bytes_iff log htext, isUtf8_iff]
    have hsome := isUtf8_iff.mp log.isUtf8_reduced
    rwa [← Option.isSome_map (f := judge), ← h, Option.isSome_map] at hsome
  · intro h
    obtain ⟨s, hs, hreduced⟩ := log.decode_of_isUtf8 hjudge h
    rw [hreduced, ← hs, decode_encode, Option.map_some]

end Log

/-! ## The judges on bytes -/

variable [Unicode]

/-- `judge_cagent` on standard input; nothing is printed if the input cannot be decoded. -/
def judgeCagent (input : Bytes) : Option (List CAgent.Judge.Result) :=
  (readStdin input).map CAgent.Judge.main

omit [Unicode] in
/-- `read_input`: the texts of the files behind one another, or standard input if there are
none. -/
def readInput (files : List Bytes) (input : Bytes) : Option Str :=
  if files = [] then readStdin input else some (files.map readFile).flatten

/-- `judge_buildstorm`.  Nothing is printed in two cases that are different exceptions: the inputs
cannot be decoded in `read_input`, or `main` raises one behind that. -/
def judgeBuildstorm (baselines : BuildStorm.Baselines) (files : List Bytes) (input : Bytes) :
    Option (Option (List BuildStorm.Result)) :=
  (readInput files input).map (BuildStorm.main baselines)

theorem judgeBuildstorm_stdin (baselines : BuildStorm.Baselines) (s : Str) :
    judgeBuildstorm baselines [] (encode s) = some (BuildStorm.main baselines s) := by
  rw [judgeBuildstorm, readInput, if_pos rfl, readStdin, decode_encode, Option.map_some]

theorem judgeBuildstorm_file (baselines : BuildStorm.Baselines) (content input : Bytes) :
    judgeBuildstorm baselines [content] input =
      some (BuildStorm.main baselines (decodeIgnore content)) := by
  rw [judgeBuildstorm, readInput, if_neg (List.cons_ne_nil _ _), Option.map_some, List.map_singleton,
    List.flatten_singleton, readFile, BuildStorm.main_newlines]

/-- Standard input that is no encoded text leaves no results. -/
theorem judge_of_not_isUtf8 {input : Bytes} (h : ¬ IsUtf8 input) (baselines : BuildStorm.Baselines) :
    judgeCagent input = none ∧ judgeBuildstorm baselines [] input = none := by
  have hnone : readStdin input = none := by
    rw [isUtf8_iff, Option.not_isSome_iff_eq_none] at h
    exact h
  rw [judgeCagent, judgeBuildstorm, readInput, if_pos rfl, hnone]
  exact ⟨rfl, rfl⟩

/-- Standard input and a file argument give the same exactly on encoded text. -/
theorem judgeBuildstorm_stdin_eq_file_iff (baselines : BuildStorm.Baselines) (bytes input : Bytes) :
    judgeBuildstorm baselines [] bytes = judgeBuildstorm baselines [bytes] input ↔ IsUtf8 bytes := by
  rw [judgeBuildstorm_file]
  constructor
  · intro h
    by_contra hnot
    rw [(judge_of_not_isUtf8 hnot baselines).2] at h
    cases h
  · rintro ⟨s, rfl⟩
    rw [judgeBuildstorm_stdin, decodeIgnore_encode]

/-! ## Logs of the two tests -/

/-- A log of the agent tests. -/
abbrev AgentLog := Log CAgent.Judge.ResultLine.text [lit "testcase"]

omit [Unicode] in
/-- A line of the build test that the judge can read. -/
abbrev ScriptLine := {line : BuildStorm.Line // line.WellFormed}

omit [Unicode] in
/-- A log of the build test. -/
abbrev BuildLog := Log (fun line : ScriptLine ↦ line.1.text) BuildStorm.markers

section Agent

open CAgent.Judge

theorem text_resultLine_ne_nil (l : ResultLine) : l.text ≠ [] := by simp [ResultLine.text]

/-- The judge of the agent tests sees only the result lines. -/
theorem main_interleave_resultLine (first : Str) (pieces : List (ResultLine × Str))
    (h : ∀ s ∈ first :: pieces.map Prod.snd, ∀ w ∈ [lit "testcase"], ¬ w <:+: s) :
    CAgent.Judge.main (interleave ResultLine.text first pieces) =
      CAgent.Judge.main (interleave ResultLine.text [] (bare pieces)) := by
  have hforeign : ∀ s ∈ first :: pieces.map Prod.snd, Foreign s := fun s hs ↦
    h s hs _ List.mem_cons_self
  obtain ⟨hfirst, hpieces⟩ := List.forall_mem_cons.mp hforeign
  have hbare : ∀ p ∈ bare pieces, Foreign p.2 := by
    intro p hp
    obtain ⟨q, _, rfl⟩ := List.mem_map.mp hp
    exact foreign_nil
  have hrecords := parseRecords_log hfirst fun p hp ↦ hpieces _ (List.mem_map_of_mem hp)
  have hrecords' := parseRecords_log foreign_nil hbare
  rw [List.map_map] at hrecords hrecords'
  rw [show ((fun l : ResultLine ↦ (l.name, l.record)) ∘ Prod.fst) =
    fun p : ResultLine × Str ↦ (p.1.name, p.1.record) from rfl] at hrecords hrecords'
  rw [map_bare fun l : ResultLine ↦ (l.name, l.record)] at hrecords'
  exact congrArg (fun records ↦ tests.map fun test ↦ result test (List.lookup test.name records))
    (hrecords.trans hrecords'.symm)

end Agent

section Build

open BuildStorm

omit [Unicode] in
theorem text_line_ne_nil (line : ScriptLine) : line.1.text ≠ [] := by simp [Line.text]

omit [Unicode] in
/-- A log as other output in front of lines, and other output at the end. -/
theorem exists_logOf (first : Str) (pieces : List (ScriptLine × Str)) :
    ∃ lines last, interleave (fun line ↦ line.1.text) first pieces = logOf lines ++ last ∧
      lines.map Prod.snd = pieces.map (fun p ↦ p.1.1) ∧
      lines.map Prod.fst ++ [last] = first :: pieces.map Prod.snd := by
  induction pieces generalizing first with
  | nil => exact ⟨[], first, by simp [interleave, logOf], rfl, rfl⟩
  | cons p pieces ih =>
      obtain ⟨lines, last, htext, hlines, hother⟩ := ih p.2
      refine ⟨(first, p.1.1) :: lines, last, ?_, ?_, ?_⟩
      · rw [interleave_cons, htext]
        simp [logOf]
      · rw [List.map_cons, List.map_cons, hlines]
      · rw [List.map_cons, List.cons_append, hother, List.map_cons]

/-- The verdict on a log, from its lines. -/
theorem main_interleave (baselines : Baselines) (first : Str) (pieces : List (ScriptLine × Str))
    (h : ∀ s ∈ first :: pieces.map Prod.snd, ∀ w ∈ markers, ¬ w <:+: s) :
    BuildStorm.main baselines (interleave (fun line ↦ line.1.text) first pieces) =
      verdictOf baselines ((pieces.map fun p ↦ p.1.1).any (announces (lit "TOOLCHAIN")))
        ((pieces.map fun p ↦ p.1.1).any (announces (lit "MINIBUILD")))
        (((((pieces.map fun p ↦ p.1.1).filterMap Line.record?).getLast?).map fieldsAt).getD []) := by
  obtain ⟨lines, last, htext, hlines, hother⟩ := exists_logOf first pieces
  rw [← hother] at h
  have hmarkerless : ∀ p ∈ lines, Markerless p.1 := fun p hp ↦
    h p.1 (List.mem_append_left _ (List.mem_map_of_mem hp))
  have hlast : Markerless last := h last (List.mem_append_right _ List.mem_cons_self)
  have hwellFormed : WellFormed lines := by
    refine fun p hp ↦ ⟨hmarkerless p hp, ?_⟩
    have hmem : p.2 ∈ pieces.map fun p ↦ p.1.1 := hlines ▸ List.mem_map_of_mem hp
    obtain ⟨q, _, hq⟩ := List.mem_map.mp hmem
    exact hq ▸ q.1.2
  rw [htext, main_logOf_append baselines hwellFormed hlast, lastRecord, ← hlines, List.any_map,
    List.any_map, List.filterMap_map]
  rfl

/-- The judge of the build test sees only the lines of the script. -/
theorem main_interleave_line (baselines : Baselines) (first : Str)
    (pieces : List (ScriptLine × Str))
    (h : ∀ s ∈ first :: pieces.map Prod.snd, ∀ w ∈ markers, ¬ w <:+: s) :
    BuildStorm.main baselines (interleave (fun line ↦ line.1.text) first pieces) =
      BuildStorm.main baselines (interleave (fun line ↦ line.1.text) [] (bare pieces)) := by
  have hbare : ∀ s ∈ [] :: (bare pieces).map Prod.snd, ∀ w ∈ markers, ¬ w <:+: s := by
    intro s hs
    have hnil : s = [] := by
      rw [bare, List.map_map] at hs
      rcases List.mem_cons.mp hs with rfl | hs
      · rfl
      · obtain ⟨p, _, rfl⟩ := List.mem_map.mp hs
        rfl
    exact hnil ▸ markerless_nil
  rw [main_interleave baselines first pieces h, main_interleave baselines [] (bare pieces) hbare,
    map_bare fun line : ScriptLine ↦ line.1]

/-- On a log with encoded text between its lines both ways of reading give what the lines give. -/
theorem judgeBuildstorm_file_of_isUtf8 (baselines : Baselines) (log : BuildLog)
    (h : ∀ s ∈ log.strays, IsUtf8 s) (input : Bytes) :
    judgeBuildstorm baselines [log.bytes] input = judgeBuildstorm baselines [] log.reduced := by
  obtain ⟨s, hs, hreduced⟩ := log.decode_of_isUtf8 (main_interleave_line baselines) h
  rw [judgeBuildstorm_file, ← hs, decodeIgnore_encode, judgeBuildstorm, readInput, if_pos rfl,
    readStdin, hreduced]

end Build

/-- **Stray bytes.**  The judges get the results of the lines alone out of a log exactly if the
bytes between the lines are encoded text, and the two ways of reading agree exactly on encoded
text. -/
theorem judges_bytes_iff (baselines : BuildStorm.Baselines) (input : Bytes) :
    (∀ log : AgentLog, judgeCagent log.bytes = judgeCagent log.reduced ↔
      ∀ s ∈ log.strays, IsUtf8 s) ∧
    (∀ log : BuildLog,
      judgeBuildstorm baselines [] log.bytes = judgeBuildstorm baselines [] log.reduced ∧
        judgeBuildstorm baselines [log.bytes] input = judgeBuildstorm baselines [] log.reduced ↔
      ∀ s ∈ log.strays, IsUtf8 s) ∧
    ∀ bytes, judgeBuildstorm baselines [] bytes = judgeBuildstorm baselines [bytes] input ↔
      IsUtf8 bytes := by
  refine ⟨fun log ↦ ?_, fun log ↦ ?_, fun bytes ↦ ?_⟩
  · exact log.map_decode_eq_iff text_resultLine_ne_nil main_interleave_resultLine
  · have hstdin := log.map_decode_eq_iff text_line_ne_nil (main_interleave_line baselines)
    exact ⟨fun h ↦ hstdin.mp h.1, fun h ↦
      ⟨hstdin.mpr h, judgeBuildstorm_file_of_isUtf8 baselines log h input⟩⟩
  · exact judgeBuildstorm_stdin_eq_file_iff baselines bytes input

/-- A line with a byte that no encoded text contains. -/
def strayLine : Bytes := [0xff, 0x0a]

omit [Unicode] in
theorem not_isUtf8_strayLine : ¬ IsUtf8 strayLine := by decide

/-- A result line behind a stray byte. -/
def strayAgentLog : AgentLog where
  first := strayLine
  pieces := [(⟨lit "cpu", true, ['5'], by decide, by decide, by decide, fun c hc ↦ by
    rw [List.mem_singleton.mp hc, isDecimal, Unicode.decimal_ascii '5' (by decide)]
    rfl⟩, [])]
  markerless := by
    simp only [List.map_cons, List.map_nil, List.forall_mem_cons]
    decide

omit [Unicode] in
/-- A record of the build test behind a stray byte. -/
def strayBuildLog : BuildLog where
  first := strayLine
  pieces := [(⟨.env (lit "TOOLCHAIN") true, (by decide : lit "TOOLCHAIN" ∈ BuildStorm.tags)⟩, [])]
  markerless := by
    simp only [List.map_cons, List.map_nil, List.forall_mem_cons]
    decide

omit [Unicode] in
/-- A stray byte costs all points. -/
theorem judges_strayLine_ne :
    let _ := asciiOnly
    judgeCagent strayAgentLog.bytes ≠ judgeCagent strayAgentLog.reduced ∧
      judgeBuildstorm BuildStorm.referenceBaselines [] strayBuildLog.bytes ≠
        judgeBuildstorm BuildStorm.referenceBaselines [] strayBuildLog.reduced ∧
      judgeBuildstorm BuildStorm.referenceBaselines [] strayBuildLog.bytes ≠
        judgeBuildstorm BuildStorm.referenceBaselines [strayBuildLog.bytes] [] := by
  let _ := asciiOnly
  have hagent : ¬ ∀ s ∈ strayAgentLog.strays, IsUtf8 s := fun h ↦
    not_isUtf8_strayLine (h strayLine List.mem_cons_self)
  have hbuild : ¬ ∀ s ∈ strayBuildLog.strays, IsUtf8 s := fun h ↦
    not_isUtf8_strayLine (h strayLine List.mem_cons_self)
  refine ⟨fun h ↦ ?_, fun h ↦ ?_, fun h ↦ ?_⟩
  · exact hagent ((strayAgentLog.map_decode_eq_iff text_resultLine_ne_nil
      main_interleave_resultLine).mp h)
  · exact hbuild ((strayBuildLog.map_decode_eq_iff text_line_ne_nil (main_interleave_line _)).mp h)
  · have hbytes := (judgeBuildstorm_stdin_eq_file_iff _ _ _).mp h
    exact hbuild ((strayBuildLog.isUtf8_bytes_iff text_line_ne_nil).mp hbytes)

end KernelTests.SerialLine
