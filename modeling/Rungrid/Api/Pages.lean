-- SUMMARY: The paged queries of the store, answered in any order their ORDER BY allows, and when their pages hold each row once.
import Rungrid.Base.Paging
import Rungrid.Api.Rest
import Rungrid.Lifecycle.Artifacts
import Rungrid.Lifecycle.Reaping
import Rungrid.Lifecycle.Scheduling

/-!
# Paged reads

`List` and `ReadRows` read one page at a time. PostgreSQL returns the rows in an order
that the ORDER BY allows, and it may choose another one for every query. The pages hold
each row once as long as no boundary between them falls between rows that the ORDER BY
leaves tied. Jobs, attempts and events are never tied; artifacts are ordered by
`created_at` alone.
-/

namespace Rungrid

namespace Store

/-- The paged queries. -/
inductive Query where
  | list
  | readRows (kind : RowKind) (job : Uuid)

namespace Query

/-- The columns a query selects. -/
@[reducible] def Row : Query → Type
  | .list => JobRow
  | .readRows .attempts _ => AttemptRow
  | .readRows .events _ => EventRec
  | .readRows .artifacts _ => ArtifactRec

/-- The rows that match the query, in no particular order. -/
def matching (db : Db) : (q : Query) → List q.Row
  | .list => db.jobs.map JobRec.row
  | .readRows .attempts job => (db.attemptsOf job).map AttemptRec.listed
  | .readRows .events job => db.eventsOf job
  | .readRows .artifacts job => db.artifactsOf job

/-- The ORDER BY of the query. -/
def before : (q : Query) → q.Row → q.Row → Prop
  | .list => fun a b => a.createdAt < b.createdAt ∨ a.createdAt = b.createdAt ∧ a.id.le b.id
  | .readRows .attempts _ => fun a b => a.attemptNumber ≤ b.attemptNumber
  | .readRows .events _ => fun a b => a.id ≤ b.id
  | .readRows .artifacts _ => fun a b => a.createdAt ≤ b.createdAt

instance : (q : Query) → DecidableRel q.before
  | .list => fun _ _ => inferInstanceAs (Decidable (_ ∨ _))
  | .readRows .attempts _ => fun a b => inferInstanceAs (Decidable (a.attemptNumber ≤ b.attemptNumber))
  | .readRows .events _ => fun a b => inferInstanceAs (Decidable (a.id ≤ b.id))
  | .readRows .artifacts _ => fun a b => inferInstanceAs (Decidable (a.createdAt ≤ b.createdAt))

instance (q : Query) : Std.Total q.before where
  total a b := by
    cases q with
    | list => exact Paging.columns_total
    | readRows kind job =>
        cases kind with
        | attempts => exact Int.le_total a.attemptNumber b.attemptNumber
        | events => exact Nat.le_total a.id b.id
        | artifacts => exact Int.le_total a.createdAt b.createdAt

instance (q : Query) : IsTrans q.Row q.before where
  trans a b c hab hbc := by
    cases q with
    | list => exact Paging.columns_trans hab hbc
    | readRows kind job =>
        cases kind with
        | attempts => exact Int.le_trans (b := b.attemptNumber) hab hbc
        | events => exact Nat.le_trans (m := b.id) hab hbc
        | artifacts => exact Int.le_trans (b := b.createdAt) hab hbc

/-- A client that reads the pages at offsets 0, `limit`, 2 * `limit` and so on until an
empty one gets every matching row once, whatever orders the queries are answered in. -/
def Partitions (db : Db) (limit : Nat) (q : Query) : Prop :=
  Paging.Partitions q.before (q.matching db) limit

end Query

/-! ## The model of the endpoints answers the queries -/

/-- The rows `ReadRows` returns. -/
def Rows.of (job : Uuid) : (kind : RowKind) → List (Query.readRows kind job).Row → Rows
  | .attempts => .attempts
  | .events => .events
  | .artifacts => .artifacts

theorem list_answers (db : Db) (limit : Nat) :
    Paging.Answers Query.list.before (Query.list.matching db) limit (Store.list db limit) := by
  intro offset
  refine ⟨(db.jobs.insertionSort JobRec.before).map JobRec.row, ⟨?_, ?_⟩, ?_⟩
  · exact (List.perm_insertionSort _ _).map _
  · exact List.pairwise_map.mpr (List.pairwise_insertionSort JobRec.before db.jobs)
  · simp [Store.list, pageOf, Paging.page, List.map_take, List.map_drop]

theorem readRows_answers (db : Db) (job : Uuid) (limit : Nat) (kind : RowKind) :
    ∃ fetch, Paging.Answers (Query.readRows kind job).before ((Query.readRows kind job).matching db)
        limit fetch ∧
      ∀ offset, readRows db job limit offset kind = Rows.of job kind (fetch offset) := by
  have hsorted : Paging.Order (Query.readRows kind job).before ((Query.readRows kind job).matching db)
      (((Query.readRows kind job).matching db).insertionSort (Query.readRows kind job).before) :=
    ⟨List.perm_insertionSort _ _, List.pairwise_insertionSort _ _⟩
  refine ⟨fun offset => Paging.page limit offset (((Query.readRows kind job).matching db).insertionSort
    (Query.readRows kind job).before), fun offset => ⟨_, hsorted, rfl⟩, fun offset => ?_⟩
  cases kind with
  | attempts | events | artifacts => rfl

end Store

/-! ## Ties -/

/-- In every order of the artifacts of the job, rows with one `created_at` stand on both
sides of position `m`. -/
def Db.TiedAt (db : Db) (job : Uuid) (m : Nat) : Prop :=
  ∃ x ∈ db.artifactsOf job,
    (db.artifactsOf job).countP (fun y => y.createdAt < x.createdAt) < m ∧
    m < (db.artifactsOf job).countP (fun y => y.createdAt ≤ x.createdAt)

instance (db : Db) (job : Uuid) (m : Nat) : Decidable (db.TiedAt job m) :=
  inferInstanceAs (Decidable (∃ x ∈ db.artifactsOf job, _))

theorem Db.tiedAt_iff {db : Db} {job : Uuid} {m : Nat} :
    Paging.Splits (Store.Query.readRows .artifacts job).before
      ((Store.Query.readRows .artifacts job).matching db) m ↔ db.TiedAt job m := by
  have hbelow (x : ArtifactRec) : Paging.below (Store.Query.readRows .artifacts job).before
      ((Store.Query.readRows .artifacts job).matching db) x
      = (db.artifactsOf job).countP (fun y => y.createdAt < x.createdAt) := by
    refine List.countP_congr (fun y _ => ?_)
    simp only [decide_eq_true_eq]
    exact lt_iff_le_not_ge.symm
  simp only [Paging.Splits, Db.TiedAt, hbelow]
  rfl

section Reachable

variable [Sha256] {db : Db}

/-- The attempts of a job have different numbers. -/
theorem Reachable.attemptNumbers (h : Reachable db) (job : Uuid) :
    ((db.attemptsOf job).map AttemptRec.attemptNumber).Nodup := by
  obtain ⟨hsound, hlog⟩ := h.logged
  cases hj : db.job? job with
  | none =>
      have hnil : db.attemptsOf job = [] := by
        refine List.filter_eq_nil_iff.mpr (fun a ha => ?_)
        have hsome := hsound.wf.attemptJob a ha
        simp only [decide_eq_true_eq]
        rintro rfl
        rw [hj] at hsome
        cases hsome
      rw [hnil]
      exact List.nodup_nil
  | some j =>
      have hnumbers := Db.numbers (hlog.coherent hsound.wf (Db.mem_of_job? hj))
      rw [Db.job?_id hj] at hnumbers
      rw [hnumbers]
      refine List.nodup_range.map (fun a b hab => ?_)
      have hab : (a : Int) + 1 = b + 1 := hab
      omega

theorem Reachable.jobIDs (h : Reachable db) : ((db.jobs.map JobRec.row).map JobRow.id).Nodup := by
  rw [List.map_map]
  exact h.logged.1.wf.jobs

theorem Reachable.listedNumbers (h : Reachable db) (job : Uuid) :
    (((db.attemptsOf job).map AttemptRec.listed).map AttemptRow.attemptNumber).Nodup := by
  rw [List.map_map]
  exact h.attemptNumbers job

theorem Reachable.eventIDs (h : Reachable db) (job : Uuid) :
    ((db.eventsOf job).map EventRec.id).Nodup :=
  h.logged.1.wf.eventIDs.nodup.sublist (List.filter_sublist.map _)

/-- The matching rows of a query are different. -/
theorem Reachable.matching_nodup (h : Reachable db) (q : Store.Query) : (q.matching db).Nodup := by
  cases q with
  | list => exact h.jobIDs.of_map
  | readRows kind job =>
      cases kind with
      | attempts => exact (h.listedNumbers job).of_map
      | events => exact (h.eventIDs job).of_map
      | artifacts =>
          have hrows : db.artifacts.Nodup := h.logged.1.wf.artifacts.of_map
          exact hrows.filter _

/-- Only artifacts can be tied. -/
theorem Reachable.untied (h : Reachable db) {q : Store.Query}
    (hq : ∀ job, q ≠ .readRows .artifacts job) {a b : q.Row} (ha : a ∈ q.matching db)
    (hb : b ∈ q.matching db) (hab : q.before a b) (hba : q.before b a) : a = b := by
  cases q with
  | list =>
      refine List.inj_on_of_nodup_map h.jobIDs ha hb ?_
      have hbits := Paging.columns_antisymm hab hba
      exact Std.Antisymm.antisymm (r := Uuid.le) _ _ hbits.le hbits.ge
  | readRows kind job =>
      cases kind with
      | attempts => exact List.inj_on_of_nodup_map (h.listedNumbers job) ha hb (Int.le_antisymm hab hba)
      | events => exact List.inj_on_of_nodup_map (h.eventIDs job) ha hb (Nat.le_antisymm hab hba)
      | artifacts => exact absurd rfl (hq job)

/-- The pages of a query hold each row once exactly if none of their boundaries splits
tied rows. -/
theorem Reachable.partitions_iff (h : Reachable db) (q : Store.Query) {limit : Nat}
    (hlimit : 0 < limit) :
    q.Partitions db limit ↔ ∀ k, ¬ Paging.Splits q.before (q.matching db) (k * limit) :=
  Paging.partitions_iff hlimit (h.matching_nodup q)

end Reachable

/-- A client that reads a list page by page gets every matching row once, whatever order
the database picks among tied rows in each query, exactly if the list is not one of
artifacts of which some with one `created_at` lie on both sides of a boundary between
two pages. -/
theorem pages_partition_iff [Sha256] {db : Db} (h : Reachable db) (q : Store.Query) {limit : Nat}
    (hlimit : 1 ≤ limit ∧ limit ≤ 1000) :
    q.Partitions db limit ↔
      ∀ job, q = .readRows .artifacts job → ∀ k, ¬ db.TiedAt job (k * limit) := by
  rw [h.partitions_iff q hlimit.1]
  constructor
  · rintro hsplits job rfl k
    rw [← Db.tiedAt_iff]
    exact hsplits k
  · intro htied k
    by_cases hq : ∃ job, q = .readRows .artifacts job
    · obtain ⟨job, rfl⟩ := hq
      rw [Db.tiedAt_iff]
      exact htied job rfl k
    · have hq : ∀ job, q ≠ .readRows .artifacts job := not_exists.mp hq
      exact Paging.not_splits (fun a ha b hb => h.untied hq ha hb) (h.matching_nodup q)

namespace Sample

/-- A report of two artifacts in one instant. -/
def twinCall : Call where
  server := server
  op := .rpc .reportProgress { request "4" with
    artifacts := some [own, { own with objectKey := Store.keyScope job jobID attemptID.text ++ "g" }] }
  oracle := fun n => ⟨fun _ => 5000, BitVec.ofNat 128 (5000 + n), 0, fun _ => false⟩

/-- The attempt reports two artifacts in one instant. -/
def twinRun : List Call := leased ++ [startCall] ++ [twinCall]

theorem twinRun_forward : ClockForward twinRun := by
  have hstarted : ClockForward (leased ++ [startCall]) :=
    clockForward [(server, submitCall.op, 1000), (server, registerCall.op, 2000),
      (server, leaseCall.op, 3000), (server, startCall.op, 4000)] (by simp)
  have htwin : twinCall.Forward := fun _ _ _ _ _ => le_rfl
  refine ⟨fun c hc => ?_, List.pairwise_append.mpr ⟨hstarted.between, by simp, ?_⟩⟩
  · rcases List.mem_append.mp hc with hc | hc
    · exact hstarted.within c hc
    · rw [List.mem_singleton.mp hc]
      exact htwin
  · intro c hc d hd t u ht hu
    have hlast : t < 5000 := by
      simp only [leased, List.cons_append, List.nil_append, List.mem_cons, List.not_mem_nil,
        or_false] at hc
      rcases hc with rfl | rfl | rfl | rfl <;> exact lt_of_lt_of_le (reads ht).2 (by decide)
    rw [List.mem_singleton.mp hd] at hu
    obtain ⟨n, i, rfl⟩ := hu
    exact hlast.le

theorem twinRun_reachable : @Reachable digest (@exec digest twinRun Db.empty) := ⟨twinRun, rfl⟩

theorem twinRun_artifacts :
    ((@exec digest twinRun Db.empty).artifactsOf jobID).map ArtifactRec.createdAt = [5000, 5000] := by
  rw [twinRun, @exec_concat digest, started_exec]
  decide +kernel

end Sample

/-- On pages of two rows the two artifacts are together. -/
theorem pages_partition_sample :
    (Store.Query.readRows .artifacts Sample.jobID).Partitions
      (@exec Sample.digest Sample.twinRun Db.empty) 2 := by
  refine (@pages_partition_iff Sample.digest _ Sample.twinRun_reachable _ 2 (by decide)).mpr ?_
  rintro job hq k ⟨x, -, hlow, hhigh⟩
  cases hq
  have hlength := congrArg List.length Sample.twinRun_artifacts
  rw [List.length_map] at hlength
  have hle := hhigh.trans_le List.countP_le_length
  simp only [List.length_cons, List.length_nil] at hlength
  omega

/-- Two artifacts of one report can have one `created_at`, also with a clock that does
not go backwards. With pages of one row the database can then return one of them twice
and the other not at all. -/
theorem twin_artifacts_repeated :
    ClockForward Sample.twinRun ∧
    ¬ (Store.Query.readRows .artifacts Sample.jobID).Partitions
      (@exec Sample.digest Sample.twinRun Db.empty) 1 := by
  refine ⟨Sample.twinRun_forward, ?_⟩
  rw [@Reachable.partitions_iff Sample.digest _ Sample.twinRun_reachable _ 1 (by decide)]
  intro hsplits
  refine hsplits 1 (Db.tiedAt_iff.mpr ?_)
  rw [Sample.twinRun, @exec_concat Sample.digest, Sample.started_exec]
  decide +kernel

end Rungrid
