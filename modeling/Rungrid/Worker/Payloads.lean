-- SUMMARY: The payloads of the worker's calls and what the server reads, and that log reports are within its limits.
import Rungrid.Base.Dumps
import Rungrid.Api.Grpc
import Rungrid.Lifecycle.Answers
import Rungrid.Worker.Artifacts
import Rungrid.Worker.Logs

/-!
# Payloads

`RPC.call` of `worker/python/rungrid_worker/rpc.py` writes the keyword arguments of a
call with `json.dumps`, and `WorkerServer.call` decodes them into a `store.Request`.
`Payload.request` is what the server gets to see of every payload the worker sends.
-/

namespace Rungrid

/-- The text of a UUID is one that the server admits as an id. -/
theorem Uuid.text_admitted (u : Uuid) :
    u.text ≠ "" ∧ u.text.utf8ByteSize ≤ 256 ∧ Text.hasNul u.text = false := by
  have hfits : Uuid.fits Uuid.layout u.text.toList = true := u.idPattern_text
  obtain ⟨hlen, hall⟩ := Uuid.fits_chars hfits
  have hsize : u.text.utf8ByteSize ≤ 4 * 36 := by
    rw [← String.ofList_toList (s := u.text), Utf8Decode.utf8ByteSize_ofList]
    have hsum := List.sum_le_card_nsmul (u.text.toList.map Char.utf8Size) 4
      (by simp [Char.utf8Size_le_four])
    rw [List.length_map, u.text_length] at hsum
    simpa using hsum
  refine ⟨fun hempty => ?_, hsize.trans (by decide), ?_⟩
  · have hlength := u.text_length
    rw [hempty] at hlength
    cases hlength
  · rw [Text.hasNul, List.contains_eq_mem, decide_eq_false_iff_not]
    intro hnul
    rcases hall _ hnul with hx | hx
    · exact absurd hx (by decide)
    · exact absurd hx (by decide)

namespace Worker

open Dumps (Str Doc)

/-! ## Payloads -/

/-- The keyword arguments of a call that `RPC.call` does not take itself. -/
inductive Payload where
  | empty
  | register (hostname : Str) (resources : Resources)
  | logs (batch : List Str)
  | artifacts (entries : List Artifact)
  | result (exitCode : Int) (reason : Str)

/-- The dictionary `upload` returns. -/
def entry (a : Artifact) : Doc :=
  .obj [(str "object_key", .str (str a.objectKey)), (str "content_type", .str (str a.contentType)),
    (str "size_bytes", .int a.sizeBytes), (str "checksum", .str (str a.checksum)),
    (str "kind", .str (str a.kind))]

namespace Payload

/-- The dictionary `payload`. -/
def doc : Payload → Doc
  | .empty => .obj []
  | .register hostname g => .obj [(str "hostname", .str hostname),
      (str "resources", .obj [(str "cpu", .int g.cpu), (str "memory_mb", .int g.memoryMB),
        (str "gpu", .int g.gpu)])]
  | .logs batch => .obj [(str "logs", .arr (batch.map .str))]
  | .artifacts entries => .obj [(str "artifacts", .arr (entries.map entry))]
  | .result exitCode reason => .obj [(str "exit_code", .int exitCode), (str "reason", .str reason)]

/-- The fields the server sees. -/
def request : Payload → Request
  | .empty => Grpc.zero.request
  | .register hostname g =>
      { Grpc.zero.request with hostname := String.ofList (Dumps.joined hostname), resources := g }
  | .logs batch =>
      { Grpc.zero.request with logs := some (batch.map (fun s => String.ofList (Dumps.joined s))) }
  | .artifacts entries => { Grpc.zero.request with artifacts := some entries }
  | .result exitCode reason =>
      { Grpc.zero.request with
        exitCode := exitCode
        reason := String.ofList (Dumps.joined reason) }

end Payload

/-- The numbers a Go `int` holds. -/
def Int64 (n : Int) : Prop := -(2 ^ 63) ≤ n ∧ n < 2 ^ 63

/-- The numbers of the payload are within the range of the fields. -/
def Payload.Fits : Payload → Prop
  | .register _ g => Int64 g.cpu ∧ Int64 g.memoryMB ∧ Int64 g.gpu
  | .artifacts entries => ∀ a ∈ entries, Int64 a.sizeBytes
  | .result exitCode _ => Int64 exitCode
  | _ => True

/-! ## Reading a payload -/

theorem joined_str (s : String) : String.ofList (Dumps.joined (str s)) = s := by
  rw [str, Dumps.joined_ofChars, String.ofList_toList]

theorem decodeInt_eq {n : Int} (h : Int64 n) (old : Int) : Decode.decodeInt old (.int n) = some n :=
  if_pos h

theorem foldName_key : ∀ name ∈ ["object_key", "content_type", "size_bytes", "checksum", "kind",
    "hostname", "resources", "cpu", "memory_mb", "gpu", "logs", "artifacts", "exit_code", "reason"],
    Decode.foldName name = name := by decide

theorem decodeElements_fresh {α β : Type} {dec : α → Json → Option α} {zero : α} {enc : β → Json}
    {f : β → α} {xs : List β} (h : ∀ x ∈ xs, dec zero (enc x) = some (f x)) :
    Decode.decodeElements dec zero [] (xs.map enc) = some (xs.map f) := by
  induction xs with
  | nil => rfl
  | cons x xs ih =>
      have hx := h x List.mem_cons_self
      have hxs := ih (fun y hy => h y (List.mem_cons_of_mem x hy))
      simp [Decode.decodeElements, hx, hxs]

/-- An array is decoded into an empty slice element by element. -/
theorem decodeSlice_fresh {α β : Type} {dec : α → Json → Option α} {zero : α} {enc : β → Json}
    {f : β → α} {xs : List β} (h : ∀ x ∈ xs, dec zero (enc x) = some (f x)) :
    Grpc.decodeSlice dec zero ⟨none, []⟩ (.arr (xs.map enc)) = some ⟨some (xs.map f), xs.map f⟩ := by
  cases xs with
  | nil => rfl
  | cons x xs =>
      have helements := decodeElements_fresh h
      rw [List.map_cons] at helements ⊢
      simp [Grpc.decodeSlice, helements]

theorem decodeArtifact_entry {a : Artifact} (h : Int64 a.sizeBytes) :
    Grpc.decodeArtifact Grpc.noArtifact (entry a).read = some a := by
  simp [entry, Doc.read, Dumps.readFields, joined_str, Grpc.decodeArtifact, Grpc.setArtifact,
    foldName_key, Decode.decodeString, decodeInt_eq h]

theorem decode_doc (p : Payload) (h : p.Fits) : Grpc.decode p.doc.read = some p.request := by
  cases p with
  | empty => rfl
  | register hostname g =>
      obtain ⟨hcpu, hmemory, hgpu⟩ := h
      simp [Payload.doc, Payload.request, Doc.read, Dumps.readFields, joined_str, Grpc.decode,
        Grpc.setField, foldName_key, Decode.decodeString, Decode.decodeResources, Decode.setResource,
        decodeInt_eq hcpu, decodeInt_eq hmemory, decodeInt_eq hgpu]
  | logs batch =>
      have hlines : Grpc.decodeSlice Decode.decodeString "" ⟨none, []⟩
          (.arr (batch.map (Doc.read ∘ Doc.str))) = some ⟨_, _⟩ :=
        decodeSlice_fresh (f := fun s => String.ofList (Dumps.joined s)) (fun _ _ => rfl)
      simp [Payload.doc, Payload.request, Doc.read, Dumps.readFields, Dumps.readAll_eq, joined_str,
        Grpc.decode, Grpc.setField, Grpc.zero, foldName_key, hlines]
  | artifacts entries =>
      have hentries : Grpc.decodeSlice Grpc.decodeArtifact Grpc.noArtifact ⟨none, []⟩
          (.arr (entries.map (Doc.read ∘ entry))) = some ⟨some (entries.map id), _⟩ :=
        decodeSlice_fresh (fun a ha => decodeArtifact_entry (h a ha))
      simp [Payload.doc, Payload.request, Doc.read, Dumps.readFields, Dumps.readAll_eq, joined_str,
        Grpc.decode, Grpc.setField, Grpc.zero, foldName_key, hentries]
  | result exitCode reason =>
      simp [Payload.doc, Payload.request, Doc.read, Dumps.readFields, joined_str, Grpc.decode,
        Grpc.setField, foldName_key, Decode.decodeString, decodeInt_eq h]

/-- The server decodes the document that the worker wrote. -/
theorem payload_write (d : Doc) : Grpc.payload (Dumps.write d) = Grpc.decode d.read := by
  have hvalue := (Dumps.spells_write d).value_eq
  have hne : Dumps.write d ≠ [] := by
    intro hnil
    rw [hnil] at hvalue
    cases hvalue
  rw [Grpc.payload, if_neg hne, hvalue, Option.bind_some]

/-! ## Calls -/

/-- `RPC`: the ids of the worker and of its session. -/
structure RPC where
  workerID : String
  sessionID : Uuid

/-- The request that `RPC.call` transmits. -/
def RPC.envelope (x : RPC) (lease : Option Lease) (waitSeconds : Int) (requestID : Uuid)
    (p : Payload) : Grpc.Envelope where
  requestId := requestID.text
  workerId := x.workerID
  sessionId := x.sessionID.text
  attemptId := (lease.map (fun l => l.attemptID.text)).getD ""
  leaseToken := (lease.map (fun l => l.leaseToken.text)).getD ""
  payloadJson := Dumps.write p.doc
  waitSeconds := waitSeconds

/-- The request of a call with a lease, as the server sees it. -/
def RPC.request (x : RPC) (l : Lease) (requestID : Uuid) (p : Payload) : Request :=
  (x.envelope (some l) 0 requestID p).fill p.request

theorem RPC.envelope_request (x : RPC) (l : Lease) (requestID : Uuid) {p : Payload} (h : p.Fits) :
    (x.envelope (some l) 0 requestID p).request = some (x.request l requestID p) := by
  have hpayload : Grpc.payload (Dumps.write p.doc) = some p.request :=
    (payload_write p.doc).trans (decode_doc p h)
  rw [Grpc.Envelope.request]
  exact congrArg (Option.map _) hpayload

/-- The ids of a request pass the checks of `RPC` and `Mutate`. -/
theorem RPC.request_formed {x : RPC} (hid : x.workerID ≠ "" ∧ x.workerID.utf8ByteSize ≤ 256)
    (l : Lease) (requestID : Uuid) {p : Payload} {m : Method} (hm : m.reports = true)
    (hreport : Store.reportOk p.request = true) (hbare : p.request.artifacts.elems = [])
    (hexit : m = .completeAttempt → p.request.exitCode = 0) :
    (x.request l requestID p).Formed m where
  reports := hm
  ids := by
    obtain ⟨hempty, hsize, -⟩ := x.sessionID.text_admitted
    simp only [Store.idsOk, Bool.and_eq_true, decide_eq_true_eq]
    exact ⟨⟨⟨hid.1, hempty⟩, hid.2⟩, hsize⟩
  nonempty := requestID.text_admitted.1
  short := requestID.text_admitted.2.1
  attempt := Option.isSome_of_eq_some (Uuid.parse_text l.attemptID)
  token := Option.isSome_of_eq_some (Uuid.parse_text l.leaseToken)
  report := hreport
  bare := hbare
  exit := hexit

theorem settled_code {err : Err} (h : err.settled = true) : (Grpc.status err).1 ≠ .invalidArgument := by
  cases err with
  | invalid detail | budget => cases h
  | conflict | notFound | db => simp [Grpc.status]

/-! ## Log reports -/

/-- A chunk of the command's output. -/
abbrev Chunk (stream : List UInt8) : Type := { chunk : List UInt8 // chunk ∈ cut stream }

/-- The line `progress` takes out of the queue for a chunk. -/
def Chunk.line {stream : List UInt8} (c : Chunk stream) : List Char := logText c.1

/-- The payload of a report of log lines. -/
def logPayload {stream : List UInt8} (batch : List (Chunk stream)) : Payload :=
  .logs (batch.map (fun c => Dumps.ofChars c.line))

theorem Chunk.line_size {stream : List UInt8} (c : Chunk stream) :
    (String.ofList c.line).utf8ByteSize ≤ 12288 := by
  have hlength := chunks_length c.2
  have hsize := logText_size c.1
  exact hsize.trans (by omega)

theorem logPayload_logs {stream : List UInt8} (batch : List (Chunk stream)) :
    (logPayload batch).request.logs = some (batch.map (fun c => String.ofList c.line)) := by
  simp [logPayload, Payload.request, Dumps.joined_ofChars]

theorem point_toNat (c : Char) : Dumps.point c.toNat = dumpChar c := by
  have hquote : c.toNat = 34 ↔ c = '"' := Char.toNat_inj (d := '"')
  have hslash : c.toNat = 92 ↔ c = '\\' := Char.toNat_inj (d := '\\')
  have hfeed : c.toNat = 10 ↔ c = '\n' := Char.toNat_inj (d := '\n')
  have hreturn : c.toNat = 13 ↔ c = '\r' := Char.toNat_inj (d := '\r')
  have htab : c.toNat = 9 ↔ c = '\t' := Char.toNat_inj (d := '\t')
  simp only [Dumps.point, dumpChar, Char.ofNat_toNat, hquote, hslash, hfeed, hreturn, htab]
  rfl

theorem write_ofChars (line : List Char) : Dumps.write (.str (Dumps.ofChars line)) = dumpText line := by
  simp [Dumps.write, Dumps.text, Dumps.body, Dumps.ofChars, dumpText, List.flatMap_map, point_toNat]

theorem writeTail_lines (line : List Char) (lines : List (List Char)) :
    dumpText line ++ Dumps.writeTail (lines.map (Doc.str ∘ Dumps.ofChars))
      = dumpItems (line :: lines) ++ [']'] := by
  induction lines generalizing line with
  | nil => rfl
  | cons next lines ih =>
      rw [List.map_cons, Function.comp_apply, Dumps.writeTail, write_ofChars, ih next, dumpItems]
      simp

theorem write_lines (lines : List (List Char)) :
    Dumps.write (.arr (lines.map (Doc.str ∘ Dumps.ofChars)))
      = '[' :: (dumpItems lines ++ [']']) := by
  cases lines with
  | nil => rfl
  | cons line lines =>
      rw [List.map_cons, Function.comp_apply, Dumps.write, write_ofChars, writeTail_lines]

theorem write_logs (lines : List (List Char)) :
    Dumps.write (Payload.logs (lines.map Dumps.ofChars)).doc = dumpLogs lines := by
  have hkey : Dumps.text (str "logs") = ['l', 'o', 'g', 's', '"'] := by decide
  rw [Payload.doc, Dumps.write, hkey, List.map_map, write_lines]
  simp [dumpLogs, Dumps.writeFields]

/-- The payload of a report is the text whose size `reportSize` counts. -/
theorem logPayload_json {stream : List UInt8} (batch : List (Chunk stream)) (x : RPC) (l : Lease)
    (id : Uuid) : (x.envelope (some l) 0 id (logPayload batch)).payloadJson
      = dumpLogs (batch.map Chunk.line) := by
  rw [← write_logs, List.map_map]
  rfl

theorem logPayload_ok {stream : List UInt8} {batch : List (Chunk stream)} (h : batch.length ≤ 100) :
    Store.reportOk (logPayload batch).request = true := by
  have hlines : ∀ c ∈ batch, (String.ofList c.line).utf8ByteSize ≤ 16384 :=
    fun c _ => c.line_size.trans (by decide)
  simp only [Store.reportOk, logPayload_logs]
  simpa [logPayload, Payload.request, Grpc.zero, GoSlice.elems, h] using hlines

end Worker

/-- Every line of a command's output takes at most 12288 bytes, and every report of
`progress` has at most a hundred of them. The server reads the lines as they are, they are
within its limits, and it never answers such a report that it is invalid. -/
theorem log_reports_within_limits [Sha256] (stream : List UInt8)
    (s : Worker.LogState (Worker.Chunk stream)) (h : Worker.LogRun (fun _ _ => True) {} s) :
    (∀ chunk ∈ Worker.cut stream, (String.ofList (Worker.logText chunk)).utf8ByteSize ≤ 12288) ∧
    ∀ batch ∈ s.reports, batch.length ≤ 100 ∧
      ∀ (x : Worker.RPC) (l : Lease) (id : Uuid), ∃ r,
        (x.envelope (some l) 0 id (Worker.logPayload batch)).request = some r ∧
        r.logs = some (batch.map (fun c => String.ofList (Worker.logText c.1))) ∧
        Store.reportOk r = true ∧
        (x.workerID ≠ "" ∧ x.workerID.utf8ByteSize ≤ 256 → ∀ server turns o db message,
          (Grpc.call server .reportProgress (x.envelope (some l) 0 id (Worker.logPayload batch))
            turns o db).1 ≠ .error .invalidArgument message) := by
  have hbounded := h.bounded ⟨Nat.zero_le _, List.forall_mem_nil _⟩
  refine ⟨fun chunk hchunk => Worker.Chunk.line_size ⟨chunk, hchunk⟩, fun batch hbatch => ?_⟩
  have hlen := hbounded.2 batch hbatch
  have hok := Worker.logPayload_ok hlen
  refine ⟨hlen, fun x l id => ?_⟩
  have hrequest := x.envelope_request l id (p := Worker.logPayload batch) trivial
  refine ⟨_, hrequest, Worker.logPayload_logs batch, hok, fun hid server turns o db message => ?_⟩
  have hformed : (x.request l id (Worker.logPayload batch)).Formed .reportProgress :=
    Worker.RPC.request_formed hid l id rfl hok rfl (fun hm => by cases hm)
  intro hanswer
  obtain ⟨err, herr, hcode⟩ := Grpc.call_code hrequest rfl hanswer
  exact Worker.settled_code (perform_settled rfl hformed herr) hcode.symm

namespace Sample

/-- The line a short command writes. -/
def greeting : Worker.Chunk [104, 105, 10] := ⟨[104, 105, 10], by decide⟩

def rpc : Worker.RPC := ⟨"w", Uuid.ID 1⟩

end Sample

/-- The line a short command writes is within the limits. -/
theorem log_reports_within_limits_sample :
    (String.ofList (Worker.logText [104, 105, 10])).utf8ByteSize ≤ 12288 ∧
      ∃ r, (Sample.rpc.envelope (some Sample.lease) 0 Sample.token
        (Worker.logPayload [Sample.greeting])).request = some r ∧ Store.reportOk r = true := by
  have hrun : Worker.LogRun (fun _ _ => True) {} (Sample.drained [Sample.greeting] []) :=
    (Sample.run_exited (fun _ _ _ => trivial) [Sample.greeting] (by decide)).trans
      (Sample.run_drained (fun _ _ _ => trivial) Sample.greeting [] [] trivial (by decide) (Or.inr rfl))
  have hlimits := @log_reports_within_limits Sample.digest _ _ hrun
  obtain ⟨r, hr, -, hok, -⟩ := (hlimits.2 [Sample.greeting] (List.mem_singleton_self _)).2 Sample.rpc
    Sample.lease Sample.token
  exact ⟨hlimits.1 _ (by decide), r, hr, hok⟩

end Rungrid
