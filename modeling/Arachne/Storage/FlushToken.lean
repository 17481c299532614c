import Arachne.Storage.Flush

/-! # What a flush token is worth

`poll_flush` reports Ok for a token when the batch its job was in has been synced. The batch syncs each segment once,
through the descriptor of the last job it has for it, and a call's records may lie in several segments; still an Ok
means that every byte the call has written and that is still in a segment file is synced
(`flush_token_sound`). The bytes of a call that are not synced yet are in the segment it submits its job for, since a
rollover within the call has synced the others; and as long as they are not synced, the job is *pending*: in the
queue, in a batch that has not come to its segment, or in one that failed (`TokenInv`).

A failed sync fails the whole batch: its tokens are reported as errors, and none as Ok. -/

namespace Arachne.Storage

open WalStorage

/-! ## The groups of a batch -/

/-- The last job of a segment. -/
def lastJob (n : Nat) (jobs : List FlushJob) : Option FlushJob :=
  (jobs.filter (·.segmentFirstIndex == n)).getLast?

theorem lastJob_snoc (n : Nat) (jobs : List FlushJob) (job : FlushJob) :
    lastJob n (jobs ++ [job]) = if job.segmentFirstIndex = n then some job else lastJob n jobs := by
  rw [lastJob, List.filter_append]
  split_ifs with h
  · rw [List.filter_cons_of_pos (by simpa using h), List.filter_nil, List.getLast?_concat]
  · rw [List.filter_cons_of_neg (by simpa using h), List.filter_nil, List.append_nil]
    rfl

theorem mem_of_lastJob {n : Nat} {jobs : List FlushJob} {last : FlushJob} (h : lastJob n jobs = some last) :
    last ∈ jobs ∧ last.segmentFirstIndex = n := by
  obtain ⟨hmem, hseg⟩ := List.mem_filter.mp (List.mem_of_getLast? h)
  exact ⟨hmem, by simpa using hseg⟩

/-- With descriptors in ascending order the last job of a segment has the newest. -/
theorem le_lastJob {n : Nat} {jobs : List FlushJob} {job last : FlushJob}
    (hasc : jobs.Pairwise fun j j' => j.segmentFirstIndex = j'.segmentFirstIndex → j.inode ≤ j'.inode)
    (hmem : job ∈ jobs) (hseg : job.segmentFirstIndex = n) (h : lastJob n jobs = some last) :
    job.inode ≤ last.inode := by
  obtain ⟨ys, hys⟩ := List.getLast?_eq_some_iff.mp h
  have hjob : job ∈ jobs.filter (·.segmentFirstIndex == n) := List.mem_filter.mpr ⟨hmem, by simpa using hseg⟩
  have hpair := hasc.sublist (List.filter_sublist (p := (·.segmentFirstIndex == n)))
  rw [hys] at hjob hpair
  rcases List.mem_append.mp hjob with hjob | hjob
  · exact (List.pairwise_append.mp hpair).2.2 job hjob last (by simp) (hseg.trans (mem_of_lastJob h).2.symm)
  · rw [List.mem_singleton.mp hjob]

/-- How a batch stands to its jobs: one group for each segment, with the descriptor of its last job, and one report
for each job. -/
structure Batch.Groups (b : Batch) (jobs : List FlushJob) : Prop where
  nodup : (b.groups.map Prod.fst).Nodup
  covers : ∀ j ∈ jobs, j.segmentFirstIndex ∈ b.groups.map Prod.fst
  newest : ∀ g ∈ b.groups, ∃ j, lastJob g.1 jobs = some j ∧ j.inode = g.2
  report_ids : b.report.map Prod.fst = jobs.map (·.id)

theorem Batch.Groups.add {b : Batch} {jobs : List FlushJob} (h : b.Groups jobs) (job : FlushJob) :
    (b.add job).Groups (jobs ++ [job]) := by
  have hreport : ∀ pos, (b.report ++ [(job.id, job.segmentFirstIndex, pos)]).map Prod.fst =
      (jobs ++ [job]).map (·.id) := fun pos => by simp [h.report_ids]
  -- groups of other segments are not affected by the job
  have hother : ∀ g ∈ b.groups, g.1 ≠ job.segmentFirstIndex →
      ∃ j, lastJob g.1 (jobs ++ [job]) = some j ∧ j.inode = g.2 := by
    intro g hg hne
    obtain ⟨j, hj, hinode⟩ := h.newest g hg
    exact ⟨j, by rw [lastJob_snoc, if_neg (Ne.symm hne), hj], hinode⟩
  have hown : ∃ j, lastJob job.segmentFirstIndex (jobs ++ [job]) = some j ∧ j.inode = job.inode :=
    ⟨job, by rw [lastJob_snoc, if_pos rfl], rfl⟩
  rw [Batch.add]
  split
  · next pos hpos =>
      obtain ⟨hlt, hname, -⟩ := List.findIdx?_eq_some_iff_getElem.mp hpos
      obtain ⟨pre, g₀, post, hgroups, hset, hname⟩ : ∃ pre g₀ post, b.groups = pre ++ g₀ :: post ∧
          b.groups.set pos (job.segmentFirstIndex, job.inode) =
            pre ++ (job.segmentFirstIndex, job.inode) :: post ∧ g₀.1 = job.segmentFirstIndex := by
        refine ⟨b.groups.take pos, b.groups[pos], b.groups.drop (pos + 1), ?_, ?_, by simpa using hname⟩
        · simp
        · rw [List.set_eq_take_append_cons_drop, if_pos hlt]
      have hkeys : (pre ++ (job.segmentFirstIndex, job.inode) :: post).map Prod.fst = b.groups.map Prod.fst := by
        simp [hgroups, hname]
      have hnodup := h.nodup
      rw [hgroups, List.map_append, List.map_cons, List.nodup_middle, List.nodup_cons, ← List.map_append,
        hname] at hnodup
      rw [hset]
      refine ⟨hkeys ▸ h.nodup, ?_, ?_, hreport pos⟩
      · intro j hj
        dsimp only
        rw [hkeys]
        rcases List.mem_append.mp hj with hj | hj
        · exact h.covers j hj
        · rw [List.mem_singleton.mp hj, ← hname, hgroups]
          exact List.mem_map_of_mem (by simp)
      · intro g hg
        rcases List.mem_append.mp hg with hg | hg
        · exact hother g (by simp [hgroups, hg]) fun heq =>
            hnodup.1 (heq ▸ List.mem_map_of_mem (List.mem_append_left _ hg))
        · rcases List.mem_cons.mp hg with rfl | hg
          · exact hown
          · exact hother g (by simp [hgroups, hg]) fun heq =>
              hnodup.1 (heq ▸ List.mem_map_of_mem (List.mem_append_right _ hg))
  · next hnone =>
      have hnew : job.segmentFirstIndex ∉ b.groups.map Prod.fst := by
        intro hmem
        obtain ⟨g, hg, hname⟩ := List.mem_map.mp hmem
        have := List.findIdx?_eq_none_iff.mp hnone g hg
        simp [hname] at this
      refine ⟨?_, ?_, ?_, hreport _⟩
      · rw [List.map_append, List.nodup_append]
        refine ⟨h.nodup, by simp, ?_⟩
        rintro n hn _ hjob rfl
        obtain rfl : n = job.segmentFirstIndex := by simpa using hjob
        exact hnew hn
      · intro j hj
        rw [List.map_append, List.mem_append]
        rcases List.mem_append.mp hj with hj | hj
        · exact .inl (h.covers j hj)
        · exact .inr (by simp [List.mem_singleton.mp hj])
      · intro g hg
        rcases List.mem_append.mp hg with hg | hg
        · exact hother g hg fun heq => hnew (heq ▸ List.mem_map_of_mem hg)
        · rw [List.mem_singleton.mp hg]
          exact hown

theorem Batch.groups_ofJobs (jobs : List FlushJob) : (Batch.ofJobs jobs).Groups jobs := by
  induction jobs using List.reverseRecOn with
  | nil => exact ⟨List.nodup_nil, by simp, by simp [Batch.ofJobs], rfl⟩
  | append_singleton jobs job ih =>
      rw [Batch.ofJobs, List.foldl_append]
      exact ih.add job

theorem Batch.ids_results (jobs : List FlushJob) (anyFailed : Bool) :
    ((Batch.ofJobs jobs).results anyFailed).map (·.id) = jobs.map (·.id) := by
  rw [← (Batch.groups_ofJobs jobs).report_ids, Batch.results, List.map_map]
  rfl

/-- Every job of the batch gets the batch's outcome. -/
theorem Batch.exists_result {jobs : List FlushJob} {t : Nat} (ht : t ∈ jobs.map (·.id)) (anyFailed : Bool) :
    ∃ r ∈ (Batch.ofJobs jobs).results anyFailed, r.id = t ∧ r.result = Batch.result anyFailed := by
  rw [← Batch.ids_results jobs anyFailed] at ht
  obtain ⟨r, hr, hid⟩ := List.mem_map.mp ht
  obtain ⟨_, -, rfl⟩ := List.mem_map.mp hr
  exact ⟨_, hr, hid, rfl⟩

/-! ## What a file-system call does to the bytes -/

/-- A file `f` later on: what is new in `f'` carries the token. -/
structure Later (token : Option Nat) (f f' : DiskFile (UInt8 × Option Nat)) : Prop where
  inode_eq : f'.inode = f.inode
  content : ∀ x ∈ f'.content, x.2 = token ∨ x ∈ f.content
  unsynced : ∀ x ∈ f'.unsynced, x.2 = token ∨ x ∈ f.unsynced

namespace Later

variable {token : Option Nat} {f f' : DiskFile (UInt8 × Option Nat)}

theorem refl (f : DiskFile (UInt8 × Option Nat)) : Later token f f := ⟨rfl, fun _ => .inr, fun _ => .inr⟩

theorem append (f : DiskFile (UInt8 × Option Nat)) (bytes : Codec.Bytes) :
    Later token f (f.append (bytes.map (·, token))) := by
  have hnew : ∀ x ∈ bytes.map (·, token), x.2 = token := by simp
  refine ⟨rfl, fun x hx => ?_, fun x hx => ?_⟩
  · exact (List.mem_append.mp hx).symm.imp_left (hnew x)
  · rw [DiskFile.unsynced_append] at hx
    exact (List.mem_append.mp hx).symm.imp_left (hnew x)

theorem truncate (f : DiskFile (UInt8 × Option Nat)) (offset : Nat) : Later token f (f.truncate offset) :=
  ⟨rfl, fun _ hx => .inr (List.mem_of_mem_take hx), fun _ hx => .inr (DiskFile.mem_unsynced_truncate hx)⟩

theorem sync (f : DiskFile (UInt8 × Option Nat)) : Later token f f.sync :=
  ⟨rfl, fun _ => .inr, fun _ hx => absurd (f.unsynced_sync ▸ hx) List.not_mem_nil⟩

/-- A change of one file in place. -/
theorem of_mem_modify {d : SegmentDisk} {n : Nat}
    {g : DiskFile (UInt8 × Option Nat) → DiskFile (UInt8 × Option Nat)} {hg : ∀ x, (g x).inode = x.inode}
    (hlater : ∀ f, Later token f (g f)) {p : Nat × DiskFile (UInt8 × Option Nat)}
    (hp : p ∈ (d.modify n g hg).files.toList) : ∃ q ∈ d.files.toList, q.1 = p.1 ∧ Later token q.2 p.2 := by
  obtain ⟨q, hq, hname, ⟨-, heq⟩ | ⟨-, heq⟩⟩ := Disk.mem_modify hp
  · exact ⟨q, hq, hname.symm, heq ▸ hlater q.2⟩
  · exact ⟨q, hq, hname.symm, by rw [heq]; exact refl _⟩

end Later

/-- After a file-system call every file is a new, empty one or was there before. -/
theorem mem_onDisk {token : Option Nat} {d : SegmentDisk} {step : FsStep} {p : Nat × DiskFile (UInt8 × Option Nat)}
    (hp : p ∈ (step.onDisk token d).files.toList) :
    (p.2.inode = d.nextInode ∧ p.2.content = []) ∨ ∃ q ∈ d.files.toList, q.1 = p.1 ∧ Later token q.2 p.2 := by
  have hsame : p ∈ d.files.toList → ∃ q ∈ d.files.toList, q.1 = p.1 ∧ Later token q.2 p.2 :=
    fun hp => ⟨p, hp, rfl, .refl p.2⟩
  cases step with
  | createSegment n =>
      rw [FsStep.onDisk, Disk.create] at hp
      split_ifs at hp with hmem
      · exact .inr (hsame hp)
      · rcases Assoc.mem_insertNew hp with rfl | hp
        · exact .inl ⟨rfl, rfl⟩
        · exact .inr (hsame hp)
  | appendSegment n bytes => exact .inr (@Later.of_mem_modify _ _ _ _ (·.inode_append _) (Later.append · bytes) _ hp)
  | truncateSegment n offset =>
      exact .inr (@Later.of_mem_modify _ _ _ _ (·.inode_truncate offset) (Later.truncate · offset) _ hp)
  | syncSegment n => exact .inr (@Later.of_mem_modify _ _ _ _ (·.inode_sync) Later.sync _ hp)
  | removeSegment n => exact .inr (hsame (List.mem_of_mem_filter hp))
  | writeMeta m => exact .inr (hsame hp)
  | renameSnapshot snapshot => exact .inr (hsame hp)
  | removeSnapshot index term => exact .inr (hsame hp)
  | writeMembership index confState => exact .inr (hsame hp)

theorem nextInode_onDisk (token : Option Nat) (d : SegmentDisk) (step : FsStep) :
    d.nextInode ≤ (step.onDisk token d).nextInode := by
  cases step with
  | createSegment n =>
      rw [FsStep.onDisk, Disk.create]
      split_ifs
      · exact le_rfl
      · exact Nat.le_succ _
  | _ => exact le_rfl

/-! ## Pending jobs -/

namespace FlushSys

/-- The jobs the flusher is working on. -/
def taken (σ : FlushSys) : List FlushJob := (σ.flusher.map Flusher.jobs).getD []

/-- The tokens handed out so far, as far as they have come. -/
def tokens (σ : FlushSys) : List Nat :=
  σ.reported.map Prod.fst ++ (σ.done.map (·.id) ++ (σ.taken ++ σ.jobs).map (·.id))

/-- Token `t` of segment `n` with descriptor `inode` has not come to an Ok: its call is under way, its job is queued
or in a batch that has failed or has yet to sync its segment, or it has failed. -/
inductive Pending (σ : FlushSys) (t n inode : Nat) : Prop where
  | called (hcall : σ.call.isSome) (ht : t = σ.nextId)
  | queued (hjob : ⟨t, n, inode⟩ ∈ σ.jobs)
  | taken (f : Flusher) (hflusher : σ.flusher = some f) (hjob : ⟨t, n, inode⟩ ∈ f.jobs)
      (hleft : f.anyFailed = true ∨ n ∉ ((Batch.ofJobs f.jobs).groups.take f.syncCount).map Prod.fst)
  | done (r : FlushJobResult) (hr : r ∈ σ.done) (hid : r.id = t) (hresult : r.result ≠ .ok ())
  | reported (result : Except String Unit) (hr : (t, result) ∈ σ.reported) (hresult : result ≠ .ok ())

end FlushSys

/-- The invariant behind flush tokens. -/
structure TokenInv (σ : FlushSys) : Prop where
  nodup : σ.tokens.Nodup
  token_lt : ∀ t ∈ σ.tokens, t < σ.nextId
  written_lt : ∀ p ∈ σ.disk.files.toList, ∀ x ∈ p.2.content, ∀ t, x.2 = some t →
    t < σ.nextId ∨ (t = σ.nextId ∧ σ.call.isSome)
  inode_lt : ∀ j ∈ σ.taken ++ σ.jobs, j.inode < σ.disk.nextInode
  ascending : (σ.taken ++ σ.jobs).Pairwise fun j j' => j.segmentFirstIndex = j'.segmentFirstIndex → j.inode ≤ j'.inode
  inode_le : ∀ j ∈ σ.taken ++ σ.jobs, ∀ p ∈ σ.disk.files.toList, p.1 = j.segmentFirstIndex → j.inode ≤ p.2.inode
  pending : ∀ p ∈ σ.disk.files.toList, ∀ x ∈ p.2.unsynced, ∀ t, x.2 = some t → σ.Pending t p.1 p.2.inode

variable {σ σ' : FlushSys} {t n inode : Nat}

/-- Steps of the store's thread leave the jobs alone. -/
theorem FlushSys.Pending.of_call (h : σ.Pending t n inode) (hjobs : σ'.jobs = σ.jobs)
    (hflusher : σ'.flusher = σ.flusher) (hdone : σ'.done = σ.done) (hreported : σ'.reported = σ.reported)
    (hcalled : σ.call.isSome → t = σ.nextId → σ'.Pending t n inode) : σ'.Pending t n inode := by
  cases h with
  | called hcall ht => exact hcalled hcall ht
  | queued hjob => exact .queued (hjobs ▸ hjob)
  | taken f hf hjob hleft => exact .taken f (hflusher.trans hf) hjob hleft
  | done r hr hid hresult => exact .done r (hdone ▸ hr) hid hresult
  | reported r hr hresult => exact .reported r (hreported ▸ hr) hresult

/-- The result a poll finds, and what it leaves. -/
theorem find_done {done : List FlushJobResult} {token : Nat} {r : FlushJobResult}
    (hfind : done.find? (·.id == token) = some r) : r.id = token ∧ ∃ xs ys, done = xs ++ r :: ys ∧
      done.eraseP (·.id == token) = xs ++ ys := by
  obtain ⟨hid, xs, ys, hdone, hxs⟩ := List.find?_eq_some_iff_append.mp hfind
  refine ⟨by simpa using hid, xs, ys, hdone, ?_⟩
  rw [hdone, List.eraseP_append_right _ fun a ha => by simpa using hxs a ha]
  exact congrArg (xs ++ ·) (List.eraseP_cons_of_pos hid)

namespace TokenInv

theorem start (s : WalStorage) : TokenInv (.start s) where
  nodup := List.nodup_nil
  token_lt := fun _ ht => absurd ht List.not_mem_nil
  written_lt := by
    intro p hp x hx t ht
    have hmem : (p.1, p.2.content) ∈ (Disk.ofSynced (s.dir.segments.map (·.map (·, none)))).contents.toList :=
      List.mem_map_of_mem (f := fun q : Nat × DiskFile (UInt8 × Option Nat) => (q.1, q.2.content)) hp
    rw [Disk.contents_ofSynced] at hmem
    obtain ⟨q, -, heq⟩ := List.mem_map.mp hmem
    rw [← (Prod.mk.inj heq).2] at hx
    obtain ⟨byte, -, rfl⟩ := List.mem_map.mp hx
    cases ht
  inode_lt := fun _ hj => absurd hj List.not_mem_nil
  ascending := List.Pairwise.nil
  inode_le := fun _ hj => absurd hj List.not_mem_nil
  pending := fun p hp x hx => absurd trivial (@Disk.clean_ofSynced _ (fun _ => True) _ p hp x hx)

/-- A call begins: no byte carries its token yet. -/
theorem persist (h : TokenInv σ) (hcall : σ.call = none) (store : WalStorage) (call : Option (List FsStep)) :
    TokenInv { σ with store, call } :=
  { h with
    written_lt := by
      intro p hp x hx t ht
      rcases h.written_lt p hp x hx t ht with hlt | ⟨-, hsome⟩
      · exact .inl hlt
      · simp [hcall] at hsome
    pending := by
      intro p hp x hx t ht
      refine (h.pending p hp x hx t ht).of_call rfl rfl rfl rfl fun hsome _ => ?_
      simp [hcall] at hsome }

/-- It makes a file-system call: what it writes carries its token. -/
theorem call (h : TokenInv σ) (step : FsStep) (rest : List FsStep) :
    TokenInv { σ with disk := step.onDisk (some σ.nextId) σ.disk, call := some rest } :=
  { h with
    written_lt := by
      intro p hp x hx t ht
      rcases mem_onDisk hp with ⟨-, hnil⟩ | ⟨q, hq, -, hlater⟩
      · simp [hnil] at hx
      · rcases hlater.content x hx with heq | hx
        · exact .inr ⟨Option.some.inj (ht.symm.trans heq), rfl⟩
        · exact (h.written_lt q hq x hx t ht).imp_right fun h => ⟨h.1, rfl⟩
    inode_lt := fun j hj => (h.inode_lt j hj).trans_le (nextInode_onDisk _ _ step)
    inode_le := by
      intro j hj p hp hname
      rcases mem_onDisk hp with ⟨hfresh, -⟩ | ⟨q, hq, hsame, hlater⟩
      · exact hfresh ▸ (h.inode_lt j hj).le
      · exact hlater.inode_eq ▸ h.inode_le j hj q hq (hsame.trans hname)
    pending := by
      intro p hp x hx t ht
      rcases mem_onDisk hp with ⟨-, hnil⟩ | ⟨q, hq, hname, hlater⟩
      · simp [DiskFile.unsynced, hnil] at hx
      · rcases hlater.unsynced x hx with heq | hx
        · exact .called rfl (Option.some.inj (ht.symm.trans heq))
        · have hp := h.pending q hq x hx t ht
          rw [hname, ← hlater.inode_eq] at hp
          exact hp.of_call rfl rfl rfl rfl fun _ ht => .called rfl ht }

/-- The job is submitted for the segment in which the call's unsynced bytes are. -/
theorem submit (h : TokenInv σ) {file : DiskFile (UInt8 × Option Nat)}
    (hconfined : ∀ p ∈ σ.disk.files.toList, ∀ x ∈ p.2.unsynced, x.2 = some σ.nextId →
      p.1 = σ.store.segmentFirstIndex)
    (hfile : σ.disk.files.get? σ.store.segmentFirstIndex = some file) :
    TokenInv { σ with
      jobs := σ.jobs ++ [⟨σ.nextId, σ.store.segmentFirstIndex, file.inode⟩]
      nextId := σ.nextId + 1
      call := none } := by
  obtain ⟨job, hjob⟩ : ∃ job : FlushJob, job = ⟨σ.nextId, σ.store.segmentFirstIndex, file.inode⟩ := ⟨_, rfl⟩
  have hmem : (σ.store.segmentFirstIndex, file) ∈ σ.disk.files.toList := by
    obtain ⟨pre, post, hlist⟩ := Assoc.toList_eq_of_get? hfile
    simp [hlist]
  have hsame : ∀ p ∈ σ.disk.files.toList, p.1 = σ.store.segmentFirstIndex → p.2 = file := by
    intro p hp hname
    have hget := Assoc.get?_of_mem hp
    rw [hname, hfile] at hget
    exact (Option.some.inj hget).symm
  have hopen : ∀ j ∈ σ.taken ++ (σ.jobs ++ [job]), j ∈ σ.taken ++ σ.jobs ∨ j = job := by
    intro j hj
    simpa [or_assoc] using hj
  have htokens : { σ with jobs := σ.jobs ++ [job], nextId := σ.nextId + 1, call := none }.tokens =
      σ.tokens ++ [σ.nextId] := by
    simp [FlushSys.tokens, FlushSys.taken, hjob]
  rw [← hjob]
  refine ⟨?_, ?_, ?_, ?_, ?_, ?_, ?_⟩
  · rw [htokens, ← List.concat_eq_append]
    exact h.nodup.concat fun hmem => Nat.lt_irrefl _ (h.token_lt _ hmem)
  · intro t ht
    rw [htokens, List.mem_append, List.mem_singleton] at ht
    rcases ht with ht | rfl
    · exact Nat.lt_succ_of_lt (h.token_lt t ht)
    · exact Nat.lt_succ_self _
  · intro p hp x hx t ht
    rcases h.written_lt p hp x hx t ht with hlt | ⟨heq, -⟩
    · exact .inl (Nat.lt_succ_of_lt hlt)
    · exact .inl (heq ▸ Nat.lt_succ_self _)
  · intro j hj
    rcases hopen j hj with hj | rfl
    · exact h.inode_lt j hj
    · exact hjob ▸ σ.disk.inode_lt _ hmem
  · show (σ.taken ++ (σ.jobs ++ [job])).Pairwise _
    rw [← List.append_assoc, List.pairwise_append]
    refine ⟨h.ascending, List.pairwise_singleton _ _, fun j hj j' hj' hseg => ?_⟩
    obtain rfl := List.mem_singleton.mp hj'
    rw [hjob] at hseg ⊢
    exact h.inode_le j hj _ hmem hseg.symm
  · intro j hj p hp hname
    rcases hopen j hj with hj | rfl
    · exact h.inode_le j hj p hp hname
    · rw [hjob] at hname ⊢
      exact (hsame p hp hname ▸ le_rfl)
  · intro p hp x hx t ht
    cases h.pending p hp x hx t ht with
    | called _ heq =>
        have hname := hconfined p hp x hx (heq ▸ ht)
        refine .queued (List.mem_append_right _ (List.mem_singleton.mpr ?_))
        rw [hjob, heq, hname, hsame p hp hname]
    | queued hmem => exact .queued (List.mem_append_left _ hmem)
    | taken f hf hmem hleft => exact .taken f hf hmem hleft
    | done r hr hid hresult => exact .done r hr hid hresult
    | reported r hr hresult => exact .reported r hr hresult

/-- What the flusher does leaves tokens, jobs and the files' contents where they are; what is to be shown is that the
unsynced bytes are still pending. -/
theorem of_flusher (h : TokenInv σ) (hopen : σ'.taken ++ σ'.jobs = σ.taken ++ σ.jobs) (hdone : σ'.done = σ.done)
    (hreported : σ'.reported = σ.reported) (hnext : σ'.nextId = σ.nextId) (hcall : σ'.call = σ.call)
    (hinode : σ'.disk.nextInode = σ.disk.nextInode)
    (hfiles : ∀ p ∈ σ'.disk.files.toList, ∃ q ∈ σ.disk.files.toList, q.1 = p.1 ∧ q.2.inode = p.2.inode ∧
      q.2.content = p.2.content)
    (hpending : ∀ p ∈ σ'.disk.files.toList, ∀ x ∈ p.2.unsynced, ∀ t, x.2 = some t →
      σ'.Pending t p.1 p.2.inode) : TokenInv σ' := by
  have htokens : σ'.tokens = σ.tokens := by
    rw [FlushSys.tokens, FlushSys.tokens, hopen, hdone, hreported]
  refine ⟨htokens ▸ h.nodup, htokens ▸ hnext ▸ h.token_lt, ?_, hopen ▸ hinode ▸ h.inode_lt, hopen ▸ h.ascending, ?_,
    hpending⟩
  · intro p hp x hx t ht
    obtain ⟨q, hq, -, -, hcontent⟩ := hfiles p hp
    rw [hnext, hcall]
    exact h.written_lt q hq x (hcontent ▸ hx) t ht
  · intro j hj p hp hname
    obtain ⟨q, hq, hsame, hinode, -⟩ := hfiles p hp
    rw [hopen] at hj
    exact hinode ▸ h.inode_le j hj q hq (hsame.trans hname)

/-- The flusher takes jobs from the front of the queue. -/
theorem receive (h : TokenInv σ) (hflusher : σ.flusher = none) (k : Nat) :
    TokenInv { σ with jobs := σ.jobs.drop k, flusher := some ⟨σ.jobs.take k, 0, false⟩ } := by
  refine h.of_flusher ?_ rfl rfl rfl rfl rfl (fun p hp => ⟨p, hp, rfl, rfl, rfl⟩) ?_
  · rw [FlushSys.taken, FlushSys.taken, hflusher]
    exact List.take_append_drop k σ.jobs
  · intro p hp x hx t ht
    cases h.pending p hp x hx t ht with
    | called hcall heq => exact .called hcall heq
    | queued hmem =>
        rw [← List.take_append_drop k σ.jobs, List.mem_append] at hmem
        rcases hmem with hmem | hmem
        · exact .taken _ rfl hmem (.inr List.not_mem_nil)
        · exact .queued hmem
    | taken f hf => simp [hflusher] at hf
    | done r hr hid hresult => exact .done r hr hid hresult
    | reported r hr hresult => exact .reported r hr hresult

/-- The sync of a group reaches the file that has the segment's name now, if the batch has a job for it. -/
theorem group_inode (h : TokenInv σ) {jobs : List FlushJob} {group : Nat × Nat} (htaken : σ.taken = jobs)
    (hgroup : group ∈ (Batch.ofJobs jobs).groups) {q : Nat × DiskFile (UInt8 × Option Nat)}
    (hq : q ∈ σ.disk.files.toList) (hmem : ⟨t, q.1, q.2.inode⟩ ∈ jobs) (hname : q.1 = group.1) :
    q.2.inode = group.2 := by
  obtain ⟨last, hlast, hinode⟩ := (Batch.groups_ofJobs jobs).newest group hgroup
  rw [← htaken] at hlast hmem
  obtain ⟨hmem', hseg⟩ := mem_of_lastJob hlast
  have hle := le_lastJob ((List.pairwise_append.mp h.ascending).1) hmem hname hlast
  have hge := h.inode_le last (List.mem_append_left _ hmem') q hq (hname.trans hseg.symm)
  rw [← hinode]
  exact Nat.le_antisymm hle hge

/-- It syncs the next group of its batch. -/
theorem sync (h : TokenInv σ) {jobs : List FlushJob} {k : Nat} {group : Nat × Nat}
    (hflusher : σ.flusher = some ⟨jobs, k, false⟩) (hgroup : (Batch.ofJobs jobs).groups[k]? = some group) :
    TokenInv { σ with disk := σ.disk.syncInode group.2, flusher := some ⟨jobs, k + 1, false⟩ } := by
  have htaken : σ.taken = jobs := by rw [FlushSys.taken, hflusher]; rfl
  refine h.of_flusher ?_ rfl rfl rfl rfl rfl ?_ ?_
  · rw [htaken]
    rfl
  · intro p hp
    obtain ⟨q, hq, hname, ⟨-, heq⟩ | ⟨-, heq⟩⟩ := Disk.mem_syncInode hp
    · exact ⟨q, hq, hname.symm, heq ▸ rfl, heq ▸ rfl⟩
    · exact ⟨q, hq, hname.symm, heq ▸ rfl, heq ▸ rfl⟩
  · intro p hp x hx t ht
    obtain ⟨hq, hne⟩ := Disk.mem_of_unsynced_syncInode hp (List.ne_nil_of_mem hx)
    cases h.pending p hq x hx t ht with
    | called hcall heq => exact .called hcall heq
    | queued hmem => exact .queued hmem
    | taken f hf hmem hleft =>
        obtain rfl : ⟨jobs, k, false⟩ = f := Option.some.inj (hflusher.symm.trans hf)
        refine .taken _ rfl hmem (.inr fun hsynced => ?_)
        rw [List.take_add_one, hgroup, List.map_append, List.mem_append] at hsynced
        rcases hsynced with hsynced | hsynced
        · exact hleft.elim (fun hfalse => nomatch hfalse) fun hleft => hleft hsynced
        · -- the group is the byte's segment, so its file was the one synced
          have hname' : p.1 = group.1 := by simpa using hsynced
          exact hne (h.group_inode htaken (List.mem_of_getElem? hgroup) hq hmem hname')
    | done r hr hid hresult => exact .done r hr hid hresult
    | reported r hr hresult => exact .reported r hr hresult

/-- A failed sync leaves the whole batch pending. -/
theorem syncFails (h : TokenInv σ) {jobs : List FlushJob} {k : Nat}
    (hflusher : σ.flusher = some ⟨jobs, k, false⟩) (failed : List Nat) :
    TokenInv { σ with flusher := some ⟨jobs, k + 1, true⟩, failed } := by
  refine h.of_flusher ?_ rfl rfl rfl rfl rfl (fun p hp => ⟨p, hp, rfl, rfl, rfl⟩) ?_
  · rw [FlushSys.taken, FlushSys.taken, hflusher]
    rfl
  · intro p hp x hx t ht
    cases h.pending p hp x hx t ht with
    | called hcall heq => exact .called hcall heq
    | queued hmem => exact .queued hmem
    | taken f hf hmem _ =>
        obtain rfl : ⟨jobs, k, false⟩ = f := Option.some.inj (hflusher.symm.trans hf)
        exact .taken _ rfl hmem (.inl rfl)
    | done r hr hid hresult => exact .done r hr hid hresult
    | reported r hr hresult => exact .reported r hr hresult

/-- A batch is only reported Ok when every segment of it is synced. -/
theorem report (h : TokenInv σ) {jobs : List FlushJob} {k : Nat} {anyFailed : Bool}
    (hflusher : σ.flusher = some ⟨jobs, k, anyFailed⟩)
    (hdone : anyFailed ∨ k = (Batch.ofJobs jobs).groups.length) :
    TokenInv { σ with done := σ.done ++ (Batch.ofJobs jobs).results anyFailed, flusher := none } := by
  have htaken : σ.taken = jobs := by rw [FlushSys.taken, hflusher]; rfl
  have htokens : { σ with done := σ.done ++ (Batch.ofJobs jobs).results anyFailed, flusher := none }.tokens =
      σ.tokens := by
    rw [FlushSys.tokens, FlushSys.tokens, htaken]
    simp [FlushSys.taken, Batch.ids_results]
  have hsub : ∀ j ∈ σ.jobs, j ∈ σ.taken ++ σ.jobs := fun j hj => List.mem_append_right _ hj
  refine ⟨htokens ▸ h.nodup, htokens ▸ h.token_lt, h.written_lt, fun j hj => h.inode_lt j (hsub j hj),
    (List.pairwise_append.mp h.ascending).2.1, fun j hj => h.inode_le j (hsub j hj), ?_⟩
  intro p hp x hx t ht
  cases h.pending p hp x hx t ht with
  | called hcall heq => exact .called hcall heq
  | queued hmem => exact .queued hmem
  | taken f hf hmem hleft =>
      obtain rfl : ⟨jobs, k, anyFailed⟩ = f := Option.some.inj (hflusher.symm.trans hf)
      cases anyFailed with
      | true =>
          obtain ⟨r, hr, hid, hresult⟩ := Batch.exists_result (List.mem_map_of_mem (f := (·.id)) hmem) true
          exact .done r (List.mem_append_right _ hr) hid (by rw [hresult]; exact nofun)
      | false =>
          have hk : k = (Batch.ofJobs jobs).groups.length := by simpa using hdone
          have hcovers := (Batch.groups_ofJobs jobs).covers _ hmem
          dsimp only at hleft
          rw [hk, List.take_length] at hleft
          exact absurd hcovers (hleft.resolve_left nofun)
  | done r hr hid hresult => exact .done r (List.mem_append_left _ hr) hid hresult
  | reported r hr hresult => exact .reported r hr hresult

/-- A poll moves a result to what has been reported. -/
theorem poll (h : TokenInv σ) {token : Nat} {r : FlushJobResult}
    (hfind : σ.done.find? (·.id == token) = some r) (store : WalStorage) :
    TokenInv { σ with
      store
      done := σ.done.eraseP (·.id == token)
      reported := σ.reported ++ [(token, r.result)] } := by
  obtain ⟨hid, xs, ys, hdone, herase⟩ := find_done hfind
  have hperm : { σ with
      store
      done := σ.done.eraseP (·.id == token)
      reported := σ.reported ++ [(token, r.result)] }.tokens.Perm σ.tokens := by
    show ((σ.reported ++ [(token, r.result)]).map Prod.fst ++ ((σ.done.eraseP (·.id == token)).map (·.id) ++
      (σ.taken ++ σ.jobs).map (·.id))).Perm σ.tokens
    have hids : (xs ++ r :: ys).map (·.id) = xs.map (·.id) ++ token :: ys.map (·.id) := by simp [hid]
    have hids' : (xs ++ ys).map (·.id) = xs.map (·.id) ++ ys.map (·.id) := List.map_append
    rw [FlushSys.tokens, herase, hdone, hids, hids', List.map_append, List.append_assoc]
    exact (List.perm_middle.symm.append_right _).append_left _
  refine { h with
    nodup := hperm.nodup_iff.mpr h.nodup
    token_lt := fun t ht => h.token_lt t (hperm.mem_iff.mp ht)
    pending := ?_ }
  intro p hp x hx t ht
  cases h.pending p hp x hx t ht with
  | called hcall heq => exact .called hcall heq
  | queued hmem => exact .queued hmem
  | taken f hf hmem hleft => exact .taken f hf hmem hleft
  | done r' hr' hid' hresult =>
      have hcases : r' = r ∨ r' ∈ xs ++ ys := by
        rw [hdone] at hr'
        exact List.mem_cons.mp (List.perm_middle.mem_iff.mp hr')
      rcases hcases with rfl | hr'
      · refine .reported r'.result (List.mem_append_right _ (List.mem_singleton.mpr ?_)) hresult
        rw [← hid, hid']
      · exact .done r' (herase ▸ hr') hid' hresult
  | reported r hr hresult => exact .reported r (List.mem_append_left _ hr) hresult

end TokenInv

/-- A token of a batch in which a sync failed is still in that batch, or has the batch's error as its result. -/
def FailedInv (σ : FlushSys) : Prop := ∀ t ∈ σ.failed,
  (∃ f, σ.flusher = some f ∧ f.anyFailed = true ∧ t ∈ f.jobs.map (·.id)) ∨
  (∃ r ∈ σ.done, r.id = t ∧ r.result = Batch.result true) ∨ (t, Batch.result true) ∈ σ.reported

theorem FlushStep.failedInv {a : FlushAction} (hstep : FlushStep σ a σ') (h : FailedInv σ) : FailedInv σ' := by
  intro t ht
  cases hstep with
  | receive hflusher _ =>
      refine (h t ht).imp_left ?_
      rintro ⟨f, hf, -⟩
      simp [hflusher] at hf
  | sync hflusher _ =>
      refine (h t ht).imp_left ?_
      rintro ⟨f, hf, hfailed, -⟩
      obtain rfl := Option.some.inj (hflusher.symm.trans hf)
      cases hfailed
  | syncFails hflusher _ =>
      rcases List.mem_append.mp ht with ht | ht
      · refine (h t ht).imp_left ?_
        rintro ⟨f, hf, hfailed, -⟩
        obtain rfl := Option.some.inj (hflusher.symm.trans hf)
        cases hfailed
      · exact .inl ⟨_, rfl, rfl, ht⟩
  | report hflusher _ =>
      rcases h t ht with ⟨f, hf, hfailed, hmem⟩ | ⟨r, hr, hid, hresult⟩ | hreported
      · obtain rfl := Option.some.inj (hflusher.symm.trans hf)
        obtain ⟨r, hr, hid, hresult⟩ := Batch.exists_result hmem true
        cases hfailed
        exact .inr (.inl ⟨r, List.mem_append_right _ hr, hid, hresult⟩)
      · exact .inr (.inl ⟨r, List.mem_append_left _ hr, hid, hresult⟩)
      · exact .inr (.inr hreported)
  | poll _ hfind =>
      obtain ⟨hid, xs, ys, hdone, herase⟩ := find_done hfind
      rcases h t ht with hflusher | ⟨r', hr', hid', hresult⟩ | hreported
      · exact .inl hflusher
      · rw [hdone] at hr'
        rcases List.mem_cons.mp (List.perm_middle.mem_iff.mp hr') with rfl | hr'
        · refine .inr (.inr (List.mem_append_right _ (List.mem_singleton.mpr ?_)))
          rw [← hid, hid', hresult]
        · exact .inr (.inl ⟨r', herase ▸ hr', hid', hresult⟩)
      · exact .inr (.inr (List.mem_append_left _ hreported))
  | _ => exact h t ht

/-! ## Runs -/

variable {opts : WalOptions} {acts : List FlushAction}

/-- Before a call begins nothing carries its token. -/
theorem TokenInv.clean (h : TokenInv σ) (hcall : σ.call = none) : σ.disk.Clean (·.2 = some σ.nextId) := by
  intro p hp x hx ht
  rcases h.written_lt p hp x (List.mem_of_mem_drop hx) _ ht with hlt | ⟨-, hsome⟩
  · exact Nat.lt_irrefl _ hlt
  · simp [hcall] at hsome

/-- What every state of a run keeps true. -/
structure FlushInv (opts : WalOptions) (σ : FlushSys) : Prop where
  inv : ∃ log base, Inv opts σ.store log base
  kept : σ.Kept (·.2 = some σ.nextId)
  token : TokenInv σ
  failed : FailedInv σ

/-- When its job is submitted, the call's unsynced bytes are in the active segment. -/
theorem FlushInv.unsynced_active (h : FlushInv opts σ) (hcall : σ.call = some []) :
    ∀ p ∈ σ.disk.files.toList, ∀ x ∈ p.2.unsynced, x.2 = some σ.nextId → p.1 = σ.store.segmentFirstIndex := by
  intro p hp x hx ht
  obtain ⟨log, base, hinv⟩ := h.inv
  obtain ⟨hmem, hlast⟩ := hinv.toTracks.active_last
  have hready := Interference.Safely.post (h.kept.carefully hcall)
  rw [← keys_of_bytes hready.bytes_eq] at hmem hlast
  by_contra hne
  have hlt := Nat.lt_of_le_of_ne (hlast p.1 (List.mem_map_of_mem hp)) hne
  exact hready.confined p hp _ hmem hlt x hx ht

theorem FlushStep.flushInv {a : FlushAction} (hstep : FlushStep σ a σ') (h : FlushInv opts σ) : FlushInv opts σ' := by
  have htoken : TokenInv σ' := by
    cases hstep with
    | persist hcall _ => exact h.token.persist hcall _ _
    | @persistNothing _ _ store hcall _ =>
        have hsame : { σ with store } = { σ with store, call := none } := by rw [← hcall]
        exact hsame ▸ h.token.persist hcall store none
    | call _ => exact h.token.call _ _
    | submit hcall hfile => exact h.token.submit (h.unsynced_active hcall) hfile
    | receive hflusher _ => exact h.token.receive hflusher _
    | sync hflusher hgroup => exact h.token.sync hflusher hgroup
    | syncFails hflusher _ => exact h.token.syncFails hflusher _
    | report hflusher hdone => exact h.token.report hflusher hdone
    | poll _ hfind => exact h.token.poll hfind _
    | pollAgain _ _ => exact h.token
  have hkept := hstep.kept h.inv h.kept fun _ _ hcall _ => h.token.clean hcall
  refine ⟨hstep.inv h.inv, ?_, htoken, hstep.failedInv h.failed⟩
  cases hstep with
  | submit hcall _ =>
      -- the next token is a new one
      have hclean := htoken.clean rfl
      exact ⟨(Interference.Safely.post (h.kept.carefully hcall)).bytes_eq, hclean.confined, fun _ => hclean⟩
  | _ => exact hkept

theorem FlushRun.flushInv {ok : FlushSys → FlushAction → Prop} (h : FlushRun opts ok acts σ) : FlushInv opts σ := by
  refine Transition.Run.invariant (P := fun _ σ => FlushInv opts σ) ?_ ?_ h
  · rintro _ ⟨s, ⟨ops, hs⟩, rfl⟩
    exact ⟨hs.inv, FlushSys.kept_start s, .start s, fun t ht => absurd ht List.not_mem_nil⟩
  · rintro _ σ a σ' - hinv ⟨-, hexec⟩
    exact (FlushStep.of_exec hexec).flushInv hinv

namespace TokenInv

/-- A token that was reported is nowhere else, and was reported once. -/
theorem reported_unique (h : TokenInv σ) {result : Except String Unit} (hr : (t, result) ∈ σ.reported) :
    t ∉ σ.done.map (·.id) ∧ t ∉ (σ.taken ++ σ.jobs).map (·.id) ∧
      ∀ result', (t, result') ∈ σ.reported → result' = result := by
  have hnodup := h.nodup
  rw [FlushSys.tokens, List.nodup_append] at hnodup
  obtain ⟨hreported, -, hdisjoint⟩ := hnodup
  have ht : t ∈ σ.reported.map Prod.fst := List.mem_map_of_mem (f := Prod.fst) hr
  refine ⟨fun hmem => ?_, fun hmem => ?_, fun result' hr' => ?_⟩
  · exact hdisjoint t ht t (List.mem_append_left _ hmem) rfl
  · exact hdisjoint t ht t (List.mem_append_right _ hmem) rfl
  · exact congrArg Prod.snd (List.inj_on_of_nodup_map hreported hr' hr rfl)

/-- A token that was reported Ok is not pending. -/
theorem not_pending (h : TokenInv σ) (hok : (t, .ok ()) ∈ σ.reported) : ¬ σ.Pending t n inode := by
  obtain ⟨hdone, hopen, hunique⟩ := h.reported_unique hok
  intro hpending
  cases hpending with
  | called _ ht =>
      have hmem : t ∈ σ.tokens := List.mem_append_left _ (List.mem_map_of_mem (f := Prod.fst) hok)
      exact absurd (h.token_lt t hmem) (ht ▸ Nat.lt_irrefl _)
  | queued hjob =>
      exact hopen (List.mem_map_of_mem (f := (·.id)) (List.mem_append_right _ hjob))
  | taken f hf hjob _ =>
      have htaken : σ.taken = f.jobs := by rw [FlushSys.taken, hf]; rfl
      exact hopen (List.mem_map_of_mem (f := (·.id)) (List.mem_append_left _ (htaken ▸ hjob)))
  | done r hr hid _ => exact hdone (hid ▸ List.mem_map_of_mem hr)
  | reported result hr hresult => exact hresult (hunique result hr)

/-- A poll finds the one result there is. -/
theorem pollFlush_result (h : TokenInv σ) {r : FlushJobResult} (hr : r ∈ σ.done) :
    (σ.store.pollFlush σ.done r.id).2.2 = some r.result := by
  have hsome : (σ.done.find? (·.id == r.id)).isSome := List.find?_isSome.mpr ⟨r, hr, beq_self_eq_true r.id⟩
  obtain ⟨r', hfind⟩ := Option.isSome_iff_exists.mp hsome
  have hid := (find_done hfind).1
  have hnodup := h.nodup
  rw [FlushSys.tokens, List.nodup_append, List.nodup_append] at hnodup
  have heq : r' = r := List.inj_on_of_nodup_map hnodup.2.1.1 (List.mem_of_find?_eq_some hfind) hr hid
  rw [pollFlush, hfind, heq]

end TokenInv

/-- **What a flush token is worth.** If the tokens of the first `k` flushes were reported Ok, every byte they wrote
that is still in a segment is synced. And if a sync failed in a batch, its tokens are reported as errors, never as Ok;
once the batch is done, each of them has been polled or a poll returns the error. -/
theorem flush_token_sound (h : FlushRun opts (fun _ _ => True) acts σ) :
    (∀ k, (∀ t < k, (t, .ok ()) ∈ σ.reported) → ∀ p ∈ σ.disk.files.toList, ∀ i byte t,
      p.2.content[i]? = some (byte, some t) → t < k → i < p.2.synced) ∧
    ∀ t ∈ σ.failed, (∀ result, (t, result) ∈ σ.reported → result = Batch.result true) ∧
      (σ.flusher = none → (t, Batch.result true) ∈ σ.reported ∨
        (σ.store.pollFlush σ.done t).2.2 = some (Batch.result true)) := by
  obtain ⟨-, -, htoken, hfailed⟩ := h.flushInv
  refine ⟨fun k hk p hp i byte t hbyte ht => ?_, fun t ht => ⟨fun result hr => ?_, fun hflusher => ?_⟩⟩
  · by_contra hsynced
    have hunsynced : (byte, some t) ∈ p.2.unsynced := by
      refine List.mem_of_getElem? (i := i - p.2.synced) ?_
      rw [DiskFile.unsynced, List.getElem?_drop, ← hbyte]
      congr 1
      omega
    exact htoken.not_pending (hk t ht) (htoken.pending p hp _ hunsynced t rfl)
  · obtain ⟨hdone, hopen, hunique⟩ := htoken.reported_unique hr
    rcases hfailed t ht with ⟨f, hf, -, hmem⟩ | ⟨r, hr, hid, -⟩ | hreported
    · have htaken : σ.taken = f.jobs := by rw [FlushSys.taken, hf]; rfl
      rw [List.map_append, htaken] at hopen
      exact absurd (List.mem_append_left _ hmem) hopen
    · exact absurd (hid ▸ List.mem_map_of_mem hr) hdone
    · exact (hunique _ hreported).symm
  · rcases hfailed t ht with ⟨f, hf, -⟩ | ⟨r, hr, hid, hresult⟩ | hreported
    · simp [hflusher] at hf
    · exact .inr (hid ▸ hresult ▸ htoken.pollFlush_result hr)
    · exact .inl hreported

/-- Two calls flushed in one batch, the second of which rolls over after its first entry; then a third, whose sync
fails. -/
def twoThenFailure : List FlushAction :=
  [.persist [sampleEntry 1 1] none, .call, .submit,
    .persist [sampleEntry 2 1, sampleEntry 3 1] none, .call, .call, .call, .call, .submit,
    .receive 1, .sync, .sync, .report, .poll 0, .poll 1,
    .persist [] (some ⟨1, none, 3⟩), .call, .submit, .receive 0, .syncFails, .report]

theorem flush_token_sound_twoThenFailure : ∃ σ, FlushRun (sampleOptions 50) (fun _ _ => True) twoThenFailure σ ∧
    (∀ t < 2, (t, .ok ()) ∈ σ.reported) ∧
    (∀ p ∈ σ.disk.files.toList, ∀ i byte t, p.2.content[i]? = some (byte, some t) → t < 2 → i < p.2.synced) ∧
    2 ∈ σ.failed ∧ (σ.store.pollFlush σ.done 2).2.2 = some (Batch.result true) := by
  have heval : (runFlush (sampleOptions 50) (fun _ _ => True) [] twoThenFailure).any fun σ =>
      (∀ t < 2, (t, .ok ()) ∈ σ.reported) ∧ 2 ∈ σ.failed ∧ σ.flusher = none ∧
        (2, Batch.result true) ∉ σ.reported := by
    decide +kernel
  obtain ⟨σ, hσ, hp⟩ := (Option.any_eq_true _ _).mp heval
  obtain ⟨hok, hfailed, hflusher, hnot⟩ := of_decide_eq_true hp
  have hrun := FlushRun.of_runFlush hσ
  obtain ⟨hdurable, hreports⟩ := flush_token_sound hrun
  exact ⟨σ, hrun, hok, hdurable 2 hok, hfailed, ((hreports 2 hfailed).2 hflusher).resolve_left hnot⟩

end Arachne.Storage
