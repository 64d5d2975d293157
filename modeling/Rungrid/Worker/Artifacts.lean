-- SUMMARY: The worker's artifacts: digests, object keys and uploads, and when an upload is admitted.
import Rungrid.Base.Dumps
import Rungrid.Store.System

/-!
# The worker's artifacts

`worker/python/rungrid_worker/artifacts.py`. `hashlib` is a parameter with the one
property of `hexdigest` that the server checks. The name of a file is a Python text: the
bytes of a name that are not UTF-8 are surrogates in it.
-/

namespace Rungrid

/-- `hashlib.sha256(...).hexdigest()` of some bytes. -/
class Hashlib where
  hexdigest : List UInt8 → String
  lower : ∀ content, Store.checksumPattern (hexdigest content) = true

namespace Worker

/-! ## Files -/

open Dumps (Str)

/-- A text without surrogates. -/
def str (s : String) : Str := Dumps.ofChars s.toList

@[simp] theorem str_empty : str "" = [] := rfl

@[simp] theorem str_append (s t : String) : str (s ++ t) = str s ++ str t := by
  rw [str, String.toList_append, Dumps.ofChars_append]
  rfl

@[simp] theorem str_eq_nil {s : String} : str s = [] ↔ s = "" := by
  simp [str, Dumps.ofChars]

@[simp] theorem encode_str (s : String) : Dumps.encode (str s) = some s := by
  rw [str, Dumps.encode_ofChars, String.ofList_toList]

theorem encode_append_str (s : String) (t : Str) :
    Dumps.encode (str s ++ t) = (Dumps.encode t).map (fun t => s ++ t) := by
  rw [str, Dumps.encode_append_ofChars, String.ofList_toList]

/-- The name of an entry of a directory. -/
def IsName (name : Str) : Prop :=
  name ≠ [] ∧ name ≠ str "." ∧ name ≠ str ".." ∧ ∀ c ∈ name, c.val ≠ 0x2f ∧ c.val ≠ 0

instance (name : Str) : Decidable (IsName name) :=
  inferInstanceAs (Decidable (name ≠ [] ∧ name ≠ str "." ∧ name ≠ str ".." ∧
    ∀ c ∈ name, c.val ≠ 0x2f ∧ c.val ≠ 0))

theorem isName_str {s : String} (hlength : 2 < s.toList.length) (hslash : '/' ∉ s.toList)
    (hnul : Text.nul ∉ s.toList) : IsName (str s) := by
  have hlen : (str s).length = s.toList.length := by simp [str, Dumps.ofChars]
  refine ⟨?_, ?_, ?_, fun c hc => ?_⟩
  · rintro h
    rw [h] at hlen
    simp at hlen
    omega
  · intro h
    rw [h] at hlen
    exact absurd hlen (by rw [show (str ".").length = 1 from rfl]; omega)
  · intro h
    rw [h] at hlen
    exact absurd hlen (by rw [show (str "..").length = 2 from rfl]; omega)
  · obtain ⟨d, hd, rfl⟩ := List.mem_map.mp hc
    refine ⟨fun h => hslash ?_, fun h => hnul ?_⟩
    · rwa [← Char.ofNat_toNat d, show d.toNat = 0x2f from h] at hd
    · rwa [← Char.ofNat_toNat d, show d.toNat = 0 from h] at hd

/-- A file of the attempt's directories, with the last component of its path. -/
structure File where
  name : Str
  content : List UInt8
  named : IsName name

variable [Hashlib]

/-- The number of bytes `digest` reads at a time. -/
def chunkSize : Nat := 1024 * 1024

/-- The loop of `digest`: `hashed` is what `update` has been called with, and the loop
ends when a read returns no bytes. -/
def digestLoop (hashed rest : List UInt8) : String :=
  if _h : rest = [] then Hashlib.hexdigest hashed
  else digestLoop (hashed ++ rest.take chunkSize) (rest.drop chunkSize)
termination_by rest.length
decreasing_by
  have := List.length_pos_iff.mpr _h
  simp only [List.length_drop, chunkSize]
  omega

/-- `digest`. -/
def digest (content : List UInt8) : String := digestLoop [] content

theorem digestLoop_eq (hashed rest : List UInt8) :
    digestLoop hashed rest = Hashlib.hexdigest (hashed ++ rest) := by
  by_cases hrest : rest = []
  · rw [digestLoop, dif_pos hrest, hrest, List.append_nil]
  · rw [digestLoop, dif_neg hrest, digestLoop_eq, List.append_assoc, List.take_append_drop]
termination_by rest.length
decreasing_by
  have := List.length_pos_iff.mpr hrest
  simp only [List.length_drop, chunkSize]
  omega

/-- The digest of a file read in chunks is the digest of its bytes. -/
theorem digest_eq (content : List UInt8) : digest content = Hashlib.hexdigest content :=
  digestLoop_eq [] content

/-! ## Uploads -/

/-- The object key of an upload. `unique` is the text of the `uuid4` drawn for it. -/
def objectKey (artifactPrefix jobID attemptID kind unique : String) (name : Str) : Str :=
  (str "/").intercalate ([str (Text.strip artifactPrefix '/'), str jobID, str attemptID, str kind,
    str unique ++ str "-" ++ name].filter (· ≠ []))

/-- The entry `upload` returns for a file of the attempt `l`. A key with a surrogate cannot
be encoded, and `put_object` raises for it at every attempt. -/
def upload (l : Lease) (kind : ArtifactKind) (unique : Uuid) (file : File) : Option Artifact :=
  (Dumps.encode (objectKey l.job.definition.artifactPrefix l.job.id.text l.attemptID.text kind.text
    unique.text file.name)).map fun key =>
      { objectKey := key
        contentType := "application/octet-stream"
        sizeBytes := file.content.length
        checksum := digest file.content
        kind := kind.text }

/-! ## Keys and scopes -/

omit [Hashlib] in
/-- The joined parts are the scope the server computes, the kind and the file. -/
theorem objectKey_eq (j : Job) (jobID attemptID unique : Uuid) (kind : ArtifactKind) (name : Str) :
    objectKey j.artifactPrefix jobID.text attemptID.text kind.text unique.text name
      = str (Store.keyScope j jobID attemptID.text ++ kind.text ++ "/" ++ (unique.text ++ "-")) ++ name := by
  have hid : ∀ u : Uuid, u.text ≠ "" := fun u h => by
    have := Uuid.text_length u
    rw [h] at this
    cases this
  have hkind : kind.text ≠ "" := by cases kind <;> decide
  have hdash : str "-" ≠ [] := by decide
  -- Python's `strip` and Go's `Trim` are the same function.
  have hstrip : Text.strip j.artifactPrefix '/' = Text.trim j.artifactPrefix '/' := rfl
  by_cases hprefix : Text.trim j.artifactPrefix '/' = ""
  · simp [objectKey, Store.keyScope, hstrip, hprefix, hid, hkind, hdash, List.intercalate]
  · simp [objectKey, Store.keyScope, hstrip, hprefix, hid, hkind, hdash, List.intercalate]

/-- The entry of a file whose name is a text without surrogates. -/
def entryOf (l : Lease) (kind : ArtifactKind) (unique : Uuid) (name : String) (content : List UInt8) :
    Artifact where
  objectKey := Store.keyScope l.job.definition l.job.id l.attemptID.text ++
    (kind.text ++ "/" ++ (unique.text ++ "-" ++ name))
  contentType := "application/octet-stream"
  sizeBytes := content.length
  checksum := Hashlib.hexdigest content
  kind := kind.text

theorem upload_eq_some {l : Lease} {kind : ArtifactKind} {unique : Uuid} {file : File} {a : Artifact} :
    upload l kind unique file = some a ↔ ∃ name, Dumps.encode file.name = some name ∧
      a = entryOf l kind unique name file.content := by
  rw [upload, objectKey_eq, encode_append_str, Option.map_map, Option.map_eq_some_iff]
  simp only [Function.comp_apply, digest_eq, String.append_assoc, entryOf]
  exact exists_congr fun name => and_congr_right fun _ => eq_comm

/-- Two dots in a row. -/
def Dots (s : String) : Prop := ['.', '.'] <:+: s.toList

omit [Hashlib] in
theorem contains_dots {s : String} : Text.contains s ".." = false ↔ ¬ Dots s := by
  rw [Text.contains, decide_eq_false_iff_not]
  rfl

omit [Hashlib] in
theorem dots_join {a b sep : String} {d : Char} (hsep : sep.toList = [d]) (hd : d ≠ '.') :
    Dots (a ++ sep ++ b) ↔ Dots a ∨ Dots b := by
  rw [Dots, String.toList_append, String.toList_append, hsep, List.append_assoc, List.singleton_append]
  exact Text.pair_infix hd

omit [Hashlib] in
theorem uuid_not_dots (u : Uuid) : ¬ Dots u.text := by
  refine Text.not_pair_infix (fun h => ?_)
  rcases (Uuid.fits_chars (Uuid.idPattern_text u)).2 '.' h with hx | hx
  · exact absurd hx (by decide)
  · cases hx

omit [Hashlib] in
theorem kind_not_dots (kind : ArtifactKind) : ¬ Dots kind.text := by
  rw [← contains_dots]
  cases kind <;> decide

omit [Hashlib] in
theorem trim_not_dots {s : String} {c : Char} (h : ¬ Dots s) : ¬ Dots (Text.trim s c) := by
  intro hd
  rw [Dots, Text.trim, String.toList_ofList] at hd
  exact h ((hd.trans (List.rdropWhile_prefix _ _).isInfix).trans (List.dropWhile_suffix _).isInfix)

omit [Hashlib] in
/-- A key in the scope of a prefix without two dots in a row has them after the scope. -/
theorem scope_dots {j : Job} (h : ¬ Dots j.artifactPrefix) (jobID attemptID : Uuid) (s : String) :
    Dots (Store.keyScope j jobID attemptID.text ++ s) ↔ Dots s := by
  have hslash : "/".toList = ['/'] := rfl
  have hbase : ¬ Dots ((if Text.trim j.artifactPrefix '/' ≠ "" then
      Text.trim j.artifactPrefix '/' ++ "/" else "") ++ jobID.text) := by
    split
    · rw [dots_join hslash (by decide)]
      exact not_or.mpr ⟨trim_not_dots h, uuid_not_dots jobID⟩
    · rw [String.empty_append]
      exact uuid_not_dots jobID
  rw [Store.keyScope, dots_join hslash (by decide), dots_join hslash (by decide)]
  simp only [hbase, uuid_not_dots, false_or]

end Worker

/-! ## Uploads and the server's check -/

/-- An upload of an attempt succeeds and the server's check admits it exactly if the name of
the file can be encoded and has no two dots in a row. -/
theorem upload_admitted_iff [Hashlib] (l : Lease) (hvalid : l.job.definition.Valid)
    (kind : ArtifactKind) (unique : Uuid) (file : Worker.File) :
    (∃ entry, Worker.upload l kind unique file = some entry ∧
      Store.artifactOk (Store.keyScope l.job.definition l.job.id l.attemptID.text) entry = true) ↔
    Dumps.encodable file.name = true ∧ ¬ Worker.str ".." <:+: file.name := by
  have hprefix := Worker.contains_dots.mp hvalid.texts.2.2.2
  have hentry : ∀ name, Store.artifactOk (Store.keyScope l.job.definition l.job.id l.attemptID.text)
      (Worker.entryOf l kind unique name file.content) = true ↔ ¬ Worker.Dots name := by
    intro name
    have hstarts : Text.startsWith (Store.keyScope l.job.definition l.job.id l.attemptID.text ++
        (kind.text ++ "/" ++ (unique.text ++ "-" ++ name)))
        (Store.keyScope l.job.definition l.job.id l.attemptID.text) = true := by
      rw [Text.startsWith_iff, String.toList_append]
      exact List.prefix_append _ _
    have hdots : Text.contains (Store.keyScope l.job.definition l.job.id l.attemptID.text ++
        (kind.text ++ "/" ++ (unique.text ++ "-" ++ name))) ".." = false ↔ ¬ Worker.Dots name := by
      rw [Worker.contains_dots, Worker.scope_dots hprefix, Worker.dots_join (d := '/') rfl (by decide),
        Worker.dots_join (d := '-') rfl (by decide)]
      simp only [Worker.kind_not_dots, Worker.uuid_not_dots, false_or]
    have hkind : (ArtifactKind.parse kind.text).isSome = true := by cases kind <;> rfl
    have hsize : (0 : Int) ≤ file.content.length := Int.natCast_nonneg _
    simp [Store.artifactOk, Worker.entryOf, hstarts, Hashlib.lower, hkind, hsize, hdots]
  simp only [Worker.upload_eq_some]
  constructor
  · rintro ⟨_, ⟨name, hname, rfl⟩, hok⟩
    rw [Dumps.encode_eq_some.mp hname]
    exact ⟨Dumps.encodable_ofChars _, fun h => (hentry name).mp hok (Dumps.ofChars_infix.mp h)⟩
  · rintro ⟨hencodable, hnot⟩
    cases hname : Dumps.encode file.name with
    | none =>
        rw [Dumps.encode_eq_none.mp hname] at hencodable
        cases hencodable
    | some name =>
        rw [Dumps.encode_eq_some.mp hname] at hnot
        exact ⟨_, ⟨name, rfl, rfl⟩, (hentry name).mpr (fun h => hnot (Dumps.ofChars_infix.mpr h))⟩

namespace Sample

/-- The bytes as a number, after a leading one. -/
def number (content : List UInt8) : Nat := content.foldl (fun n b => 256 * n + b.toNat) 1

/-- A digest that tells apart what has less than 32 bytes: its bytes in hexadecimal. -/
@[reducible] def hashlib : Hashlib where
  hexdigest content :=
    String.ofList ((List.range 64).map (fun i => Text.hexDigit (number content / 16 ^ (63 - i) % 16)))
  lower content := by
    have hlower : ∀ d < 16, ((Text.hexDigit d).isDigit || ('a' ≤ Text.hexDigit d && Text.hexDigit d ≤ 'f'))
        = true := by decide
    simp only [Store.checksumPattern, String.toList_ofList, List.length_map, List.length_range,
      decide_true, Bool.true_and, List.all_map, List.all_eq_true]
    exact fun i _ => hlower _ (Nat.mod_lt _ (by decide))

/-- A file with a name that can be encoded. -/
def fileOf (name : String) (content : List UInt8) (h : Worker.IsName (Worker.str name)) : Worker.File :=
  ⟨Worker.str name, content, h⟩

/-- The surrogate for the byte `0xe9`. -/
def surrogate : Dumps.CodePoint := ⟨0xdce9, by decide⟩

/-- The name of the bytes `r\xe9sultat.txt`, which are not UTF-8. -/
def latin : Worker.File :=
  ⟨Worker.str "r" ++ [surrogate] ++ Worker.str "sultat.txt", [], by decide⟩

end Sample

theorem upload_admitted_iff_sample :
    ∃ entry, @Worker.upload Sample.hashlib Sample.lease .output (Uuid.ID 7)
        (Sample.fileOf "result.json" [123, 125] (by decide)) = some entry ∧
      Store.artifactOk (Store.keyScope Sample.lease.job.definition Sample.lease.job.id
        Sample.lease.attemptID.text) entry = true :=
  (@upload_admitted_iff Sample.hashlib Sample.lease (by decide) .output (Uuid.ID 7)
    (Sample.fileOf "result.json" [123, 125] (by decide))).mpr ⟨by decide, by decide⟩

/-- A command that leaves the output `a..b` has its output reported, and the server
rejects the report. A name that is not UTF-8 is not even uploaded. -/
theorem upload_of_dotted_name_rejected :
    (∃ entry, @Worker.upload Sample.hashlib Sample.lease .output (Uuid.ID 7)
        (Sample.fileOf "a..b" [] (by decide)) = some entry ∧
      (@perform Sample.digest ⟨Sample.server, .rpc .reportProgress { Sample.request "4" with
          artifacts := some [entry] }, Sample.oracle 5000⟩
        (@exec Sample.digest (Sample.leased ++ [Sample.startCall]) Db.empty)).1
        = .error (.invalid none)) ∧
      @Worker.upload Sample.hashlib Sample.lease .output (Uuid.ID 7) Sample.latin = none := by
  rw [@exec_concat Sample.digest, Sample.leased_exec]
  refine ⟨⟨_, rfl, ?_⟩, ?_⟩
  · decide +kernel
  · decide +kernel

end Rungrid
