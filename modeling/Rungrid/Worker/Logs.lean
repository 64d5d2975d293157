-- SUMMARY: The command's output on its way to the server: chunks, the bounded queue, and the reports of `progress`.
import Mathlib.Logic.Relation
import Mathlib.Data.List.DropRight
import Mathlib.Algebra.Order.BigOperators.Group.List
import Rungrid.Base.Utf8

/-!
# Log lines

`read_logs` cuts the output of the command into chunks, decodes them and puts them into
a queue of 1000 lines. `progress` takes at most 100 lines out of the queue and sends
them in one `ReportProgress`; it is called every 0.1 seconds while the command runs,
and once more after it has ended.
-/

namespace Rungrid

namespace Worker

/-! ## Chunks -/

/-- `stream.readline(limit)`: the line, with its newline, or its first `limit` bytes. -/
def readline : Nat → List UInt8 → List UInt8 × List UInt8
  | 0, bytes => ([], bytes)
  | _ + 1, [] => ([], [])
  | limit + 1, b :: bytes =>
      if b = 10 then ([b], bytes)
      else (b :: (readline limit bytes).1, (readline limit bytes).2)

/-- The chunks `read_logs` reads before the stream ends. -/
def chunks : Nat → List UInt8 → List (List UInt8)
  | 0, _ => []
  | _ + 1, [] => []
  | fuel + 1, b :: bytes =>
      (readline 4096 (b :: bytes)).1 :: chunks fuel (readline 4096 (b :: bytes)).2

/-- A chunk is not empty, so there are at most as many as there are bytes. -/
def cut (stream : List UInt8) : List (List UInt8) := chunks stream.length stream

theorem chunks_succ (fuel : Nat) {bytes : List UInt8} (h : bytes ≠ []) :
    chunks (fuel + 1) bytes = (readline 4096 bytes).1 :: chunks fuel (readline 4096 bytes).2 := by
  cases bytes with
  | nil => exact absurd rfl h
  | cons b bytes => rfl

theorem readline_append (limit : Nat) (bytes : List UInt8) :
    (readline limit bytes).1 ++ (readline limit bytes).2 = bytes := by
  induction limit generalizing bytes with
  | zero => rfl
  | succ limit ih =>
      cases bytes with
      | nil => rfl
      | cons b bytes =>
          rw [readline]
          split
          · rfl
          · rw [List.cons_append, ih]

theorem readline_length (limit : Nat) (bytes : List UInt8) :
    (readline limit bytes).1.length ≤ limit := by
  induction limit generalizing bytes with
  | zero => exact Nat.le_refl _
  | succ limit ih =>
      cases bytes with
      | nil => exact Nat.zero_le _
      | cons b bytes =>
          rw [readline]
          split
          · exact Nat.succ_le_succ (Nat.zero_le _)
          · exact Nat.succ_le_succ (ih bytes)

theorem readline_pos (limit : Nat) (b : UInt8) (bytes : List UInt8) :
    0 < (readline (limit + 1) (b :: bytes)).1.length := by
  rw [readline]
  split <;> exact Nat.succ_pos _

/-- Nothing of the stream is left out. -/
theorem chunks_flatten {fuel : Nat} {bytes : List UInt8} (h : bytes.length ≤ fuel) :
    (chunks fuel bytes).flatten = bytes := by
  induction fuel generalizing bytes with
  | zero => rw [List.length_eq_zero_iff.mp (Nat.le_zero.mp h)]; rfl
  | succ fuel ih =>
      cases bytes with
      | nil => rfl
      | cons b bytes =>
          have happend := readline_append 4096 (b :: bytes)
          have hpos : 0 < (readline 4096 (b :: bytes)).1.length := readline_pos 4095 b bytes
          have hlength := congrArg List.length happend
          rw [List.length_append] at hlength
          rw [chunks, List.flatten_cons, ih (by omega), happend]

theorem cut_flatten (stream : List UInt8) : (cut stream).flatten = stream :=
  chunks_flatten (Nat.le_refl _)

theorem chunks_length {fuel : Nat} {bytes chunk : List UInt8} (h : chunk ∈ chunks fuel bytes) :
    chunk.length ≤ 4096 := by
  induction fuel generalizing bytes with
  | zero => cases h
  | succ fuel ih =>
      cases bytes with
      | nil => cases h
      | cons b bytes =>
          rcases List.mem_cons.mp h with rfl | h
          · exact readline_length 4096 (b :: bytes)
          · exact ih h

/-- The characters of the line that is queued for a chunk. -/
def logText (chunk : List UInt8) : List Char := (Utf8Decode.decode chunk).rdropWhile Text.isSpace

/-! ## The size of a report -/

/-- `json.dumps` escapes everything outside of printable ASCII. -/
def dumpChar (c : Char) : List Char :=
  if c = '"' then ['\\', '"']
  else if c = '\\' then ['\\', '\\']
  else if c = '\n' then ['\\', 'n']
  else if c = '\r' then ['\\', 'r']
  else if c = '\t' then ['\\', 't']
  else if c.toNat = 8 then ['\\', 'b']
  else if c.toNat = 12 then ['\\', 'f']
  else if 32 ≤ c.toNat ∧ c.toNat ≤ 126 then [c]
  else if c.toNat < 0x10000 then dumpUnit c.toNat
  else dumpUnit (0xD800 + (c.toNat - 0x10000) / 1024) ++ dumpUnit (0xDC00 + (c.toNat - 0x10000) % 1024)
where
  /-- The escape of a UTF-16 unit. -/
  dumpUnit (n : Nat) : List Char :=
    ['\\', 'u', Text.hexDigit (n / 4096 % 16), Text.hexDigit (n / 256 % 16),
      Text.hexDigit (n / 16 % 16), Text.hexDigit (n % 16)]

/-- `json.dumps` of a text. -/
def dumpText (text : List Char) : List Char := '"' :: (text.flatMap dumpChar ++ ['"'])

/-- `json.dumps` of the items of a list. -/
def dumpItems : List (List Char) → List Char
  | [] => []
  | [text] => dumpText text
  | text :: next :: rest => dumpText text ++ [',', ' '] ++ dumpItems (next :: rest)

/-- `json.dumps({"logs": batch})`. -/
def dumpLogs (batch : List (List Char)) : List Char :=
  ['{', '"', 'l', 'o', 'g', 's', '"', ':', ' ', '['] ++ dumpItems batch ++ [']', '}']

/-- The bytes of a base-128 number in a protocol buffer. -/
def varintSize (n : Nat) : Nat := if n < 128 then 1 else 1 + varintSize (n / 128)

/-- The bytes of a field with a length. Empty fields are left out. -/
def fieldSize (length : Nat) : Nat := if length = 0 then 0 else 1 + varintSize length + length

/-- The bytes of the `Request` in which `progress` sends a batch. The ids of the request,
the session, the attempt and the lease are UUIDs. -/
def reportSize (workerID : String) (batch : List (List Char)) : Nat :=
  fieldSize 36 + fieldSize workerID.utf8ByteSize + fieldSize 36 + fieldSize 36 + fieldSize 36 +
    fieldSize (dumpLogs batch).length

/-- `grpc.MaxRecvMsgSize(2 << 20)`. -/
def maxRecvMsgSize : Nat := 2 * 2 ^ 20

/-- The characters a text takes in the report, without its quotes. -/
def dumpSize (text : List Char) : Nat := (text.map (fun c => (dumpChar c).length)).sum

theorem dumpText_length (text : List Char) : (dumpText text).length = dumpSize text + 2 := by
  simp [dumpText, dumpSize, List.length_flatMap]

theorem dumpItems_length {batch : List (List Char)} (h : batch ≠ []) :
    (dumpItems batch).length + 2 = (batch.map dumpSize).sum + 4 * batch.length := by
  induction batch with
  | nil => exact absurd rfl h
  | cons text rest ih =>
      cases rest with
      | nil => simp [dumpItems, dumpText_length]
      | cons next rest =>
          have hrest := ih (by simp)
          simp only [dumpItems, List.length_append, dumpText_length, List.map_cons, List.sum_cons,
            List.length_cons, List.length_nil] at hrest ⊢
          omega

theorem dumpLogs_length {batch : List (List Char)} (h : batch ≠ []) :
    (dumpLogs batch).length = (batch.map dumpSize).sum + 4 * batch.length + 10 := by
  have hitems := dumpItems_length h
  simp only [dumpLogs, List.length_append, List.length_cons, List.length_nil]
  omega

theorem varintSize_small {n : Nat} (h : n < 2 ^ 14) : varintSize n ≤ 2 := by
  unfold varintSize
  split
  · omega
  · unfold varintSize
    split
    · omega
    · omega

theorem varintSize_eq {n : Nat} (h : 2 ^ 14 ≤ n) (h' : n < 2 ^ 21) : varintSize n = 3 := by
  unfold varintSize
  rw [if_neg (by omega)]
  unfold varintSize
  rw [if_neg (by omega)]
  unfold varintSize
  rw [if_pos (by omega)]

theorem varintSize_large {n : Nat} (h : 2 ^ 21 ≤ n) : 2 ≤ varintSize n := by
  unfold varintSize
  rw [if_neg (by omega)]
  have hpos : 1 ≤ varintSize (n / 128) := by
    unfold varintSize
    split <;> omega
  omega

/-- A worker id that `RPC` admits takes at most 259 bytes. -/
theorem fieldSize_id {n : Nat} (h : n ≤ 256) : fieldSize n ≤ 259 := by
  unfold fieldSize
  split
  · omega
  · have hsmall := varintSize_small (n := n) (by omega)
    omega

/-- A character takes at most six, and twelve outside of the basic plane. -/
theorem dumpChar_length (c : Char) :
    (dumpChar c).length ≤ 12 ∧ (c.toNat < 0x10000 → (dumpChar c).length ≤ 6) := by
  unfold dumpChar
  split_ifs <;> simp [dumpChar.dumpUnit]
  omega

theorem dumpSize_le (chunk : List UInt8) : dumpSize (logText chunk) ≤ 6 * chunk.length := by
  have hdecoded : dumpSize (Utf8Decode.decode chunk) ≤ 6 * chunk.length :=
    Utf8Decode.decode_weight (fun c hc => (dumpChar_length c).2 hc) (fun c => (dumpChar_length c).1) chunk
  obtain ⟨stripped, happend⟩ := List.rdropWhile_prefix Text.isSpace (Utf8Decode.decode chunk)
  have hsum : dumpSize (logText chunk) + dumpSize stripped = dumpSize (Utf8Decode.decode chunk) := by
    rw [← happend, logText, dumpSize, dumpSize, dumpSize, List.map_append, List.sum_append]
  omega

/-- A line takes at most three bytes for each byte of its chunk. -/
theorem logText_size (chunk : List UInt8) :
    (String.ofList (logText chunk)).utf8ByteSize ≤ 3 * chunk.length := by
  have hdecoded := Utf8Decode.decode_size chunk
  obtain ⟨stripped, happend⟩ := List.rdropWhile_prefix Text.isSpace (Utf8Decode.decode chunk)
  rw [← happend, List.map_append, List.sum_append] at hdecoded
  rw [Utf8Decode.utf8ByteSize_ofList, logText]
  omega

/-- The size of a report by the sizes of its lines. -/
theorem reportSize_le_iff {workerID : String} (hid : workerID.utf8ByteSize ≤ 256)
    (batch : List (List Char)) :
    reportSize workerID batch ≤ maxRecvMsgSize ↔
      (batch.map dumpSize).sum + 4 * batch.length + 166 + fieldSize workerID.utf8ByteSize
        ≤ maxRecvMsgSize := by
  have hworker := fieldSize_id hid
  have huuid : fieldSize 36 = 38 := by
    rw [fieldSize, varintSize]
    rfl
  have hmax : maxRecvMsgSize = 2097152 := rfl
  rcases List.eq_nil_or_concat batch with rfl | ⟨init, last, rfl⟩
  · have hlogs : fieldSize (dumpLogs []).length ≤ 15 := by
      rw [show (dumpLogs []).length = 12 from rfl, fieldSize, varintSize]
      decide
    simp only [reportSize, huuid, hmax, List.map_nil, List.sum_nil, List.length_nil]
    omega
  · have hlength : (dumpLogs (init.concat last)).length
        = ((init.concat last).map dumpSize).sum + 4 * (init.concat last).length + 10 :=
      dumpLogs_length (by simp)
    simp only [reportSize, huuid, hmax]
    generalize ((init.concat last).map dumpSize).sum + 4 * (init.concat last).length = size at hlength ⊢
    generalize (dumpLogs (init.concat last)).length = p at hlength ⊢
    have hfield : fieldSize p = 1 + varintSize p + p := if_neg (by omega)
    -- The length of the payload takes three bytes wherever the sum is near the limit.
    rcases Nat.lt_or_ge p (2 ^ 14) with hsmall | hlarge
    · have hsize := varintSize_small hsmall
      omega
    · rcases Nat.lt_or_ge p (2 ^ 21) with hmid | hhuge
      · have hsize := varintSize_eq hlarge hmid
        omega
      · have hsize := varintSize_large hhuge
        omega

end Worker

/-- A report of log lines fits the limit of the server exactly if its lines, escaped, do.
A report of at most 85 lines always does. -/
theorem log_report_fits_iff (workerID : String) (hid : workerID.utf8ByteSize ≤ 256)
    (stream : List UInt8) (batch : List (List UInt8)) (hbatch : batch.Sublist (Worker.cut stream)) :
    (Worker.reportSize workerID (batch.map Worker.logText) ≤ Worker.maxRecvMsgSize ↔
      (batch.map (fun chunk => Worker.dumpSize (Worker.logText chunk))).sum + 4 * batch.length + 166 +
        Worker.fieldSize workerID.utf8ByteSize ≤ Worker.maxRecvMsgSize) ∧
    (batch.length ≤ 85 →
      Worker.reportSize workerID (batch.map Worker.logText) ≤ Worker.maxRecvMsgSize) := by
  have hiff := Worker.reportSize_le_iff hid (batch.map Worker.logText)
  rw [List.map_map, List.length_map] at hiff
  refine ⟨hiff, fun hlen => hiff.mpr ?_⟩
  have hsum : (batch.map (Worker.dumpSize ∘ Worker.logText)).sum ≤ batch.length * 24576 := by
    have hsizes : ∀ size ∈ batch.map (Worker.dumpSize ∘ Worker.logText), size ≤ 24576 := by
      intro size hsize
      obtain ⟨chunk, hchunk, rfl⟩ := List.mem_map.mp hsize
      have hlength := Worker.chunks_length (hbatch.subset hchunk)
      have hdump : Worker.dumpSize (Worker.logText chunk) ≤ 6 * chunk.length :=
        Worker.dumpSize_le chunk
      exact hdump.trans (by omega)
    simpa using List.sum_le_card_nsmul _ _ hsizes
  have hworker := Worker.fieldSize_id hid
  have hmax : Worker.maxRecvMsgSize = 2097152 := rfl
  omega

namespace Sample

/-- A chunk of control characters. -/
def controls (n : Nat) : List UInt8 := List.replicate n 1

theorem logText_controls (n : Nat) : Worker.logText (controls n) = List.replicate n (Char.ofNat 1) := by
  have hdecode : Utf8Decode.decode (controls n) = List.replicate n (Char.ofNat 1) := by
    rw [Utf8Decode.decode_ascii (fun b hb => by rw [List.eq_of_mem_replicate hb]; decide), controls,
      List.map_replicate]
    rfl
  rw [Worker.logText, hdecode, List.rdropWhile_eq_self_iff]
  intro hne
  have hlast := List.eq_of_mem_replicate (List.getLast_mem hne)
  rw [hlast]
  decide

theorem dumpSize_controls (n : Nat) : Worker.dumpSize (Worker.logText (controls n)) = n * 6 := by
  have hone : (Worker.dumpChar (Char.ofNat 1)).length = 6 := by decide
  rw [logText_controls, Worker.dumpSize, List.map_replicate, hone, List.sum_replicate, Nat.nsmul_eq_mul]

theorem readline_controls (n : Nat) (rest : List UInt8) :
    Worker.readline n (controls n ++ rest) = (controls n, rest) := by
  induction n with
  | zero => rfl
  | succ n ih =>
      rw [controls, List.replicate_succ, List.cons_append, Worker.readline, if_neg (by decide)]
      rw [controls] at ih
      rw [ih]

theorem chunks_controls {k fuel : Nat} (h : k ≤ fuel) :
    Worker.chunks fuel (controls (k * 4096)) = List.replicate k (controls 4096) := by
  induction k generalizing fuel with
  | zero => cases fuel <;> rfl
  | succ k ih =>
      obtain ⟨fuel, rfl⟩ : ∃ n, fuel = n + 1 := ⟨fuel - 1, by omega⟩
      have hsplit : controls ((k + 1) * 4096) = controls 4096 ++ controls (k * 4096) := by
        rw [Nat.succ_mul, Nat.add_comm, controls, List.replicate_add]
        rfl
      have hne : controls 4096 ++ controls (k * 4096) ≠ [] := by
        intro hnil
        have hlength := congrArg List.length hnil
        rw [List.length_append, controls, List.length_replicate] at hlength
        exact absurd hlength (by simp)
      rw [hsplit, Worker.chunks_succ fuel hne, readline_controls, ih (by omega), List.replicate_succ]

theorem cut_controls (k : Nat) :
    Worker.cut (controls (k * 4096)) = List.replicate k (controls 4096) := by
  refine chunks_controls ?_
  rw [controls, List.length_replicate]
  omega

end Sample

/-- A command that writes text is reported within the limit. -/
theorem log_report_fits_sample :
    "6d1b4c1e-6d2b-4c34-9ef1-0e3f6a1c2b5d".utf8ByteSize ≤ 256 ∧
      Worker.reportSize "6d1b4c1e-6d2b-4c34-9ef1-0e3f6a1c2b5d"
        ((Worker.cut [104, 105, 10]).map Worker.logText) ≤ Worker.maxRecvMsgSize := by
  have hid : "6d1b4c1e-6d2b-4c34-9ef1-0e3f6a1c2b5d".utf8ByteSize ≤ 256 := by decide
  exact ⟨hid, (log_report_fits_iff _ hid [104, 105, 10] _ (List.Sublist.refl _)).2 (by decide)⟩

/-- A hundred chunks of control characters, which the command writes at once, are a
report the server does not receive. -/
theorem log_report_too_large : ∃ stream : List UInt8,
    (Worker.cut stream).length = 100 ∧
      Worker.maxRecvMsgSize < Worker.reportSize "w" ((Worker.cut stream).map Worker.logText) := by
  have hlength : (Worker.cut (Sample.controls (100 * 4096))).length = 100 := by
    rw [Sample.cut_controls, List.length_replicate]
  refine ⟨Sample.controls (100 * 4096), hlength, Nat.lt_of_not_le fun hle => ?_⟩
  have hfits := (Worker.reportSize_le_iff (by decide) _).mp hle
  rw [List.map_map, List.length_map, hlength, Sample.cut_controls, List.map_replicate,
    Function.comp_apply, Sample.dumpSize_controls, List.sum_replicate, Nat.nsmul_eq_mul] at hfits
  have hmax : Worker.maxRecvMsgSize = 2097152 := rfl
  omega

/-! ## The queue -/

namespace Worker

/-- Where `execute` is. `last` is set in the call of `progress` that follows the command's
exit. -/
inductive LogPhase where
  | polling
  | collecting (last : Bool)
  | reporting (last : Bool)
  | exited
  | closing
  | ended
  deriving DecidableEq, Repr

/-- What the reader's thread and `execute` do to the log lines. -/
inductive LogEvent (α : Type) where
  | put (line : α)
  | eof
  | progress
  | get
  | stop
  | report (entries : Bool)
  | exit
  | drain
  | result
  | raise

/-- The queue, the lines `progress` has taken out of it, and the logs of the reports sent
so far. `accepted` are the lines that found room in the queue. -/
structure LogState (α : Type) where
  reading : Bool := true
  queue : List α := []
  batch : List α := []
  accepted : List α := []
  reports : List (List α) := []
  phase : LogPhase := .polling

/-- A step of the reader or of `execute`. Every call to the server succeeds. -/
inductive LogStep {α : Type} : LogEvent α → LogState α → LogState α → Prop where
  | put {s line} (hreading : s.reading = true) (hroom : s.queue.length < 1000) :
      LogStep (.put line) s
        { s with queue := s.queue ++ [line], accepted := s.accepted ++ [line] }
  | full {s line} (hreading : s.reading = true) (hfull : 1000 ≤ s.queue.length) :
      LogStep (.put line) s s
  | eof {s} (hreading : s.reading = true) : LogStep .eof s { s with reading := false }
  | progress {s} (hphase : s.phase = .polling) :
      LogStep .progress s { s with phase := .collecting false }
  | get {s last line rest} (hphase : s.phase = .collecting last) (hbatch : s.batch.length < 100)
      (hqueue : s.queue = line :: rest) :
      LogStep .get s { s with queue := rest, batch := s.batch ++ [line] }
  | stop {s last} (hphase : s.phase = .collecting last)
      (hstop : s.batch.length = 100 ∨ s.queue = []) :
      LogStep .stop s { s with phase := .reporting last }
  -- Without lines and without checkpoints there is no report.
  | report {s last entries} (hphase : s.phase = .reporting last) :
      LogStep (.report entries) s
        { s with
          batch := []
          reports := if s.batch ≠ [] ∨ entries then s.reports ++ [s.batch] else s.reports
          phase := if last then .closing else .polling }
  | exit {s} (hphase : s.phase = .polling) : LogStep .exit s { s with phase := .exited }
  | drain {s} (hphase : s.phase = .exited) :
      LogStep .drain s { s with phase := .collecting true }
  | result {s} (hphase : s.phase = .closing) : LogStep .result s { s with phase := .ended }
  -- A checkpoint, the log or an output cannot be read or uploaded, and `FailAttempt` follows.
  | raise {s} (hphase : (∃ last, s.phase = .reporting last) ∨ s.phase = .closing) :
      LogStep .raise s { s with phase := .ended }

/-- The runs whose steps all meet a condition. -/
def LogRun {α : Type} (C : LogEvent α → LogState α → Prop) : LogState α → LogState α → Prop :=
  Relation.ReflTransGen fun s t => ∃ e, LogStep e s t ∧ C e s

/-- No upload fails before the last lines are reported. -/
def LogEvent.Calm {α : Type} (e : LogEvent α) (s : LogState α) : Prop :=
  e = .raise → s.phase = .closing

/-- When the last call of `progress` begins, the output is read to its end and one report
can take what is queued. -/
def LogEvent.Drainable {α : Type} (e : LogEvent α) (s : LogState α) : Prop :=
  e.Calm s ∧ (e = .drain → s.reading = false ∧ s.queue.length ≤ 100)

section Delivery

variable {α : Type}

/-- Every accepted line is reported, taken, or queued, in this order. -/
def LogState.Kept (s : LogState α) : Prop := s.accepted = s.reports.flatten ++ s.batch ++ s.queue

/-- `execute` collects lines only within `progress`. -/
def LogState.Cleared (s : LogState α) : Prop :=
  s.batch = [] ∨ (∃ last, s.phase = .collecting last) ∨ (∃ last, s.phase = .reporting last) ∨
    s.phase = .ended

/-- `progress` takes at most a hundred lines at a time. -/
def LogState.Bounded (s : LogState α) : Prop :=
  s.batch.length ≤ 100 ∧ ∀ batch ∈ s.reports, batch.length ≤ 100

theorem LogStep.bounded {e : LogEvent α} {s t : LogState α} (h : LogStep e s t) (hs : s.Bounded) :
    t.Bounded := by
  obtain ⟨hbatch, hreports⟩ := hs
  cases h with
  | get _ hroom _ =>
      refine ⟨?_, hreports⟩
      dsimp only
      rw [List.length_append, List.length_singleton]
      exact hroom
  | report hphase =>
      refine ⟨Nat.zero_le _, fun batch hmem => ?_⟩
      dsimp only at hmem
      split at hmem
      · rcases List.mem_append.mp hmem with hmem | hmem
        · exact hreports batch hmem
        · rw [List.mem_singleton.mp hmem]
          exact hbatch
      · exact hreports batch hmem
  | put | full | eof | progress | stop | exit | drain | result | raise => exact ⟨hbatch, hreports⟩

theorem LogStep.kept {e : LogEvent α} {s t : LogState α} (h : LogStep e s t) (hs : s.Kept) :
    t.Kept := by
  unfold LogState.Kept at hs ⊢
  cases h with
  | put hreading hroom => simp [hs]
  | get hphase hbatch hqueue => simp [hs, hqueue]
  | @report _ last entries hphase =>
      rw [hs]
      dsimp only
      split
      · simp
      · next hnone =>
          have hbatch : s.batch = [] := by
            by_contra hne
            exact hnone (Or.inl hne)
          simp [hbatch]
  | full | eof | progress | stop | exit | drain | result | raise => exact hs

theorem LogStep.cleared {e : LogEvent α} {s t : LogState α} (h : LogStep e s t) (hs : s.Cleared) :
    t.Cleared := by
  unfold LogState.Cleared at hs ⊢
  cases h <;> simp_all

/-- What is left of the `n` lines that were queued when the command had ended and its
output was read. The last report takes a hundred of them. -/
def LogState.Remains (n : Nat) (s : LogState α) : Prop :=
  s.reading = false ∧
    match s.phase with
    | .exited => s.batch = [] ∧ s.queue.length = n
    | .collecting last => last = true ∧ s.batch.length ≤ 100 ∧ s.batch.length + s.queue.length = n
    | .reporting last => last = true ∧ s.queue.length = n - 100
    | .closing | .ended => s.batch = [] ∧ s.queue.length = n - 100
    | .polling => False

theorem LogStep.remains {e : LogEvent α} {s t : LogState α} {n : Nat} (h : LogStep e s t)
    (hcalm : e.Calm s) (hs : s.Remains n) : t.Remains n := by
  obtain ⟨hreading, hs⟩ := hs
  cases h with
  | put hread | full hread | eof hread => rw [hreading] at hread; cases hread
  | progress hphase | exit hphase => rw [hphase] at hs; exact hs.elim
  | get hphase hbatch hqueue =>
      rw [hphase] at hs
      rw [hqueue, List.length_cons] at hs
      refine ⟨hreading, ?_⟩
      dsimp only
      rw [hphase]
      refine ⟨hs.1, ?_⟩
      rw [List.length_append, List.length_singleton]
      omega
  | stop hphase hstop =>
      rw [hphase] at hs
      refine ⟨hreading, hs.1, ?_⟩
      dsimp only
      rcases hstop with hstop | hstop
      · omega
      · rw [hstop, List.length_nil] at hs ⊢
        omega
  | report hphase =>
      rw [hphase] at hs
      obtain ⟨rfl, hs⟩ := hs
      exact ⟨hreading, rfl, hs⟩
  | drain hphase =>
      rw [hphase] at hs
      obtain ⟨hbatch, hqueue⟩ := hs
      refine ⟨hreading, rfl, ?_⟩
      dsimp only
      rw [hbatch, List.length_nil, hqueue, Nat.zero_add]
      exact ⟨Nat.zero_le _, rfl⟩
  | result hphase =>
      rw [hphase] at hs
      exact ⟨hreading, hs⟩
  | raise =>
      rw [hcalm rfl] at hs
      exact ⟨hreading, hs⟩

/-- The phases after the last call of `progress` has begun. -/
def LogState.Draining (s : LogState α) : Prop :=
  s.phase = .collecting true ∨ s.phase = .reporting true ∨ s.phase = .closing ∨ s.phase = .ended

theorem LogStep.draining {e : LogEvent α} {s t : LogState α} (h : LogStep e s t)
    (hdrain : e.Drainable s) (hcleared : s.Cleared)
    (hs : s.Draining → ∃ n ≤ 100, s.Remains n) (ht : t.Draining) : ∃ n ≤ 100, t.Remains n := by
  -- The last call of `progress` begins here, or it has begun before.
  by_cases hbegun : s.Draining
  · obtain ⟨n, hn, hs⟩ := hs hbegun
    exact ⟨n, hn, h.remains hdrain.1 hs⟩
  · cases h with
    | drain hphase =>
        obtain ⟨hreading, hqueue⟩ := hdrain.2 rfl
        have hbatch : s.batch = [] := by
          simpa [LogState.Cleared, hphase] using hcleared
        refine ⟨s.queue.length, hqueue, hreading, rfl, ?_, ?_⟩
        · simp [hbatch]
        · simp [hbatch]
    | raise => exact absurd (Or.inr (Or.inr (Or.inl (hdrain.1 rfl)))) hbegun
    | @report _ last _ hphase =>
        cases last with
        | true => exact absurd (Or.inr (Or.inl hphase)) hbegun
        | false => simp [LogState.Draining] at ht
    | stop hphase =>
        rename_i last _
        cases last with
        | true => exact absurd (Or.inl hphase) hbegun
        | false => simp [LogState.Draining] at ht
    | progress | exit => simp [LogState.Draining] at ht
    | result hphase => exact absurd (Or.inr (Or.inr (Or.inl hphase))) hbegun
    | put | full | eof | get => exact absurd ht hbegun

theorem LogRun.bounded {C : LogEvent α → LogState α → Prop} {s t : LogState α} (h : LogRun C s t)
    (hs : s.Bounded) : t.Bounded := by
  induction h with
  | refl => exact hs
  | tail _ hstep ih =>
      obtain ⟨e, hstep, _⟩ := hstep
      exact hstep.bounded ih

theorem LogRun.kept {C : LogEvent α → LogState α → Prop} {s t : LogState α} (h : LogRun C s t)
    (hs : s.Kept ∧ s.Cleared) : t.Kept ∧ t.Cleared := by
  induction h with
  | refl => exact hs
  | tail _ hstep ih =>
      obtain ⟨e, hstep, _⟩ := hstep
      exact ⟨hstep.kept ih.1, hstep.cleared ih.2⟩

theorem LogRun.remains {s t : LogState α} {n : Nat} (h : LogRun LogEvent.Calm s t)
    (hs : s.Remains n) : t.Remains n := by
  induction h with
  | refl => exact hs
  | tail _ hstep ih =>
      obtain ⟨e, hstep, hcalm⟩ := hstep
      exact hstep.remains hcalm ih

theorem LogRun.draining {s t : LogState α} (h : LogRun LogEvent.Drainable s t)
    (hkept : s.Kept ∧ s.Cleared) (hs : s.Draining → ∃ n ≤ 100, s.Remains n) :
    t.Draining → ∃ n ≤ 100, t.Remains n := by
  induction h with
  | refl => exact hs
  | tail hrun hstep ih =>
      obtain ⟨e, hstep, hdrain⟩ := hstep
      exact hstep.draining hdrain (LogRun.kept hrun hkept).2 ih

/-- Everything that was accepted is reported if nothing is left. -/
theorem LogState.reported_iff {s : LogState α} (hkept : s.Kept) (hbatch : s.batch = []) :
    s.reports.flatten = s.accepted ↔ s.queue.length = 0 := by
  rw [hkept, hbatch, List.append_nil, List.length_eq_zero_iff]
  simp

end Delivery

end Worker

/-- In every run of an attempt whose last `progress` finds the output read and at most a
hundred lines queued, every accepted line is reported once and in order before the result.
Whenever the output is read before it, this is the case exactly with at most a hundred
lines. -/
theorem log_delivery_iff {α : Type} :
    (∀ s : Worker.LogState α, Worker.LogRun Worker.LogEvent.Drainable {} s → s.phase = .ended →
      s.reports.flatten = s.accepted) ∧
    (∀ s t : Worker.LogState α, Worker.LogRun (fun _ _ => True) {} s → s.phase = .exited →
      s.reading = false → Worker.LogRun Worker.LogEvent.Calm s t → t.phase = .ended →
      (t.reports.flatten = t.accepted ↔ s.queue.length ≤ 100)) := by
  have hstart : Worker.LogState.Kept (α := α) {} ∧ Worker.LogState.Cleared (α := α) {} :=
    ⟨rfl, Or.inl rfl⟩
  refine ⟨fun s hrun hended => ?_, fun s t hreach hexited hreading hrun hended => ?_⟩
  · have hbegin : Worker.LogState.Draining (α := α) {} → ∃ n ≤ 100, Worker.LogState.Remains (α := α) n {} :=
      fun h => by simp [Worker.LogState.Draining] at h
    obtain ⟨n, hn, hremains⟩ := hrun.draining hstart hbegin (Or.inr (Or.inr (Or.inr hended)))
    rw [Worker.LogState.Remains, hended] at hremains
    rw [Worker.LogState.reported_iff (hrun.kept hstart).1 hremains.2.1]
    omega
  · have hcleared := (hreach.kept hstart).2
    have hbatch : s.batch = [] := by simpa [Worker.LogState.Cleared, hexited] using hcleared
    have hremains : s.Remains s.queue.length := by
      rw [Worker.LogState.Remains, hexited]
      exact ⟨hreading, hbatch, rfl⟩
    have hleft := hrun.remains hremains
    rw [Worker.LogState.Remains, hended] at hleft
    rw [Worker.LogState.reported_iff (hrun.kept (hreach.kept hstart)).1 hleft.2.1, hleft.2.2]
    omega

namespace Sample

section Drain

variable {α : Type} {C : Worker.LogEvent α → Worker.LogState α → Prop}

/-- The command has ended, its output is read, and the lines are queued. -/
def exited (lines : List α) : Worker.LogState α :=
  { reading := false, queue := lines, accepted := lines, phase := .exited }

/-- `execute` has reported `taken` and sent the result. -/
def drained (taken rest : List α) : Worker.LogState α :=
  { reading := false, queue := rest, accepted := taken ++ rest, reports := [taken], phase := .ended }

/-- The steps no condition is about. -/
def quiet : Worker.LogEvent α → Bool
  | .raise | .drain => false
  | _ => true

theorem run_puts (hquiet : ∀ e s, quiet e = true → C e s) (lines : List α)
    (h : lines.length ≤ 1000) : Worker.LogRun C {} { queue := lines, accepted := lines } := by
  induction lines using List.reverseRecOn with
  | nil => exact .refl
  | append_singleton lines line ih =>
      rw [List.length_append, List.length_singleton] at h
      refine (ih (by omega)).tail ⟨.put line, .put rfl (by dsimp only; omega), ?_⟩
      exact hquiet _ _ rfl

theorem run_exited (hquiet : ∀ e s, quiet e = true → C e s) (lines : List α)
    (h : lines.length ≤ 1000) : Worker.LogRun C {} (exited lines) := by
  refine ((run_puts hquiet lines h).tail ⟨.eof, .eof rfl, ?_⟩).tail ⟨.exit, .exit rfl, ?_⟩
  · exact hquiet _ _ rfl
  · exact hquiet _ _ rfl

theorem run_gets (hquiet : ∀ e s, quiet e = true → C e s) (taken rest : List α)
    (s : Worker.LogState α) (hphase : s.phase = .collecting true)
    (hqueue : s.queue = taken ++ rest) (h : s.batch.length + taken.length ≤ 100) :
    Worker.LogRun C s { s with queue := rest, batch := s.batch ++ taken } := by
  induction taken generalizing s with
  | nil =>
      rw [List.nil_append] at hqueue
      rw [List.append_nil, ← hqueue]
      exact .refl
  | cons line taken ih =>
      rw [List.length_cons] at h
      have hnext := ih { s with queue := taken ++ rest, batch := s.batch ++ [line] } hphase rfl
        (by dsimp only; rw [List.length_append, List.length_singleton]; omega)
      dsimp only at hnext
      rw [List.append_assoc, List.singleton_append] at hnext
      refine .head ⟨.get, .get hphase (by omega) hqueue, ?_⟩ hnext
      exact hquiet _ _ rfl

theorem run_drained (hquiet : ∀ e s, quiet e = true → C e s) (line : α)
    (taken rest : List α) (hdrain : C .drain (exited (line :: taken ++ rest)))
    (hlen : taken.length < 100) (hstop : taken.length = 99 ∨ rest = []) :
    Worker.LogRun C (exited (line :: taken ++ rest)) (drained (line :: taken) rest) := by
  have hgets := run_gets hquiet (line :: taken) rest
    { exited (line :: taken ++ rest) with phase := .collecting true } rfl rfl
    (by rw [List.length_cons]; exact (Nat.zero_add _).symm ▸ hlen)
  refine (((Relation.ReflTransGen.head ⟨.drain, .drain rfl, hdrain⟩ hgets).tail
    ⟨.stop, .stop rfl ?_, ?_⟩).tail ⟨.report false, .report rfl, ?_⟩).tail ⟨.result, .result rfl, ?_⟩
  · exact hstop.imp_left fun h => congrArg Nat.succ h
  · exact hquiet _ _ rfl
  · exact hquiet _ _ rfl
  · exact hquiet _ _ rfl

theorem calm_quiet (e : Worker.LogEvent α) (s : Worker.LogState α) (h : quiet e = true) :
    e.Calm s := by
  rintro rfl
  cases h

theorem calm_drain (s : Worker.LogState α) : Worker.LogEvent.Calm .drain s := by
  intro h
  cases h

theorem drainable_quiet (e : Worker.LogEvent α) (s : Worker.LogState α) (h : quiet e = true) :
    e.Drainable s := by
  refine ⟨calm_quiet e s h, ?_⟩
  rintro rfl
  cases h

end Drain

end Sample

/-- The line a short command writes is reported. -/
theorem log_delivery_sample :
    (Sample.drained ["hi"] []).reports.flatten = (Sample.drained ["hi"] []).accepted ∧
      ((Sample.drained ["hi"] []).reports.flatten = (Sample.drained ["hi"] []).accepted ↔
        (Sample.exited ["hi"]).queue.length ≤ 100) := by
  have hdrain : Worker.LogEvent.Drainable .drain (Sample.exited ["hi"]) :=
    ⟨Sample.calm_drain _, fun _ => ⟨rfl, by decide⟩⟩
  refine ⟨log_delivery_iff.1 _ ?_ rfl, log_delivery_iff.2 _ _ ?_ rfl rfl ?_ rfl⟩
  · exact (Sample.run_exited Sample.drainable_quiet ["hi"] (by decide)).trans
      (Sample.run_drained Sample.drainable_quiet "hi" [] [] hdrain (by decide) (Or.inr rfl))
  · exact Sample.run_exited (fun _ _ _ => trivial) ["hi"] (by decide)
  · exact Sample.run_drained Sample.calm_quiet "hi" [] []
      (Sample.calm_drain _) (by decide) (Or.inr rfl)

/-- A command that writes 101 lines and ends loses the last one. -/
theorem log_line_lost : ∃ s : Worker.LogState Nat, Worker.LogRun Worker.LogEvent.Calm {} s ∧
    s.phase = .ended ∧ 100 ∈ s.accepted ∧ 100 ∉ s.reports.flatten := by
  refine ⟨Sample.drained (0 :: List.range' 1 99) [100], ?_, rfl, ?_, ?_⟩
  · exact (Sample.run_exited Sample.calm_quiet _ (by decide)).trans
      (Sample.run_drained Sample.calm_quiet 0 (List.range' 1 99) [100]
        (Sample.calm_drain _) (by decide) (Or.inl (by decide)))
  · exact List.mem_append_right _ List.mem_cons_self
  · decide

end Rungrid
