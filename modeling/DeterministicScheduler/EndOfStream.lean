import DeterministicScheduler.History
import DeterministicScheduler.PassOrder

/-!
# When a read reports no bytes

A read that finishes with no bytes tells its caller that nothing more will come:
the other end is closed. The exception is a write of no bytes, which finishes a
waiting read in the same way while both ends stay open.
-/
namespace DeterministicScheduler.Scheduler

open ProgramLogic Program Outcome Std

variable {μ κ : Type} [Memory μ] {cap : Option ℕ} {env : Env μ κ} {s s' t w r r' : Scheduler μ κ}
  {tr l l' : List (Event μ)}

/-- What a round, from `s` to `s'` with a pass that logs `l`, does with the reads of
at least one byte. One that reports no bytes has its other end closed, and while
that is open the VM waits on until it gets a byte or the root exits. -/
structure EndOfStream (s s' : Scheduler μ κ) (l : List (Event μ)) : Prop where
  closed : ∀ (v : VmId) (p : PipeId) (length bufferAddr lengthAddr : UInt64),
    s.states[v]? = some (.waitForRead p length bufferAddr lengthAddr) → length ≠ 0 →
    .store64 v lengthAddr 0 ∈ l → p.otherPipe ∉ s.pipes
  waits : ∀ (v : VmId) (p : PipeId) (length bufferAddr lengthAddr : UInt64),
    s.states[v]? = some (.waitForRead p length bufferAddr lengthAddr) → length ≠ 0 →
    p.otherPipe ∈ s.pipes →
      s'.states[v]? = some (.waitForRead p length bufferAddr lengthAddr) ∨
      s'.states[rootVmId]? = some .terminated ∨
      ∃ (writeVmId : VmId) (data : Bytes), .transfer v writeVmId p.otherPipe data ∈ l ∧ data ≠ []

/-- Whether no read of at least one byte waits opposite to a write of none. -/
def NoEmptyWrite (s : Scheduler μ κ) : Prop :=
  ∀ (v w : VmId) (p : PipeId)
    (length bufferAddr lengthAddr consumed bufferAddr' lengthAddr' : UInt64),
    s.states[v]? = some (.waitForRead p length bufferAddr lengthAddr) → length ≠ 0 →
    s.states[w]? ≠ some (.waitForWrite p.otherPipe consumed 0 bufferAddr' lengthAddr')

/-- The log of a pass is that of its completions and of its transfers. -/
theorem PassOf.mem_log {l₁ l₂ : List (Event μ)} (h : PassOf env s t l₁ s' l₂) (hinv : Invariant s)
    (hrun : Running s) {ev : Event μ} : ev ∈ l₁ ++ l₂ ↔
      (∃ id state, id ∈ s.closedVms ∧ s.states[id]? = some state ∧ ev ∈ closedEvents id state) ∨
        ∃ (rd : Read) (wr : Write) (data : Bytes),
          ((rd.vmId, rd.state wr.pipe.otherPipe), (wr.vmId, wr.state)) ∈ s.pairedVms ∧
          data.length = (wr.copiable rd).toNat ∧
          (∃ t', transferPair none env
            ((rd.vmId, rd.state wr.pipe.otherPipe), (wr.vmId, wr.state)) t =
              .ok ⟨⟩ t' (transferLog rd wr data)) ∧ ev ∈ transferLog rd wr data := by
  rw [List.mem_append, h.finished.log, h.transferred.log]
  apply or_congr
  · constructor
    · rintro ⟨id, hid, t', lx, hfinish, hev⟩
      obtain ⟨state, hstate, hclosed⟩ := mem_closedVms.mp hid
      obtain ⟨m, hm⟩ := hinv.resident.machine (mem_iff_getElem?.mpr ⟨_, hstate⟩)
      obtain ⟨core, _, _, rfl⟩ := finishClosed_ok hstate hclosed hm hfinish
      exact ⟨id, state, hid, hstate, hev⟩
    · rintro ⟨id, state, hid, hstate, hev⟩
      obtain ⟨t', lx, hfinish, _⟩ := h.finished.each id hid
      obtain ⟨state', hstate', hclosed⟩ := mem_closedVms.mp hid
      obtain ⟨m, hm⟩ := hinv.resident.machine (mem_iff_getElem?.mpr ⟨_, hstate'⟩)
      obtain ⟨core, _, _, rfl⟩ := finishClosed_ok hstate' hclosed hm hfinish
      rw [hstate, Option.some.injEq] at hstate'
      exact ⟨id, hid, t', _, hfinish, hstate' ▸ hev⟩
  · constructor
    · rintro ⟨pair, hpair, t', lx, htransfer, hev⟩
      obtain ⟨rd, wr, rfl, _⟩ := hrun.pairedVms_cases hpair
      obtain ⟨t₁, m, data, htransfer', hload, _⟩ := h.pair hinv hpair
      rw [htransfer] at htransfer'
      cases htransfer'
      refine ⟨rd, wr, data, hpair, ?_, ⟨t', htransfer⟩, hev⟩
      rw [Memory.loadBytes_eq hload, List.length_map, List.length_range]
    · rintro ⟨rd, wr, data, hpair, _, ⟨t', htransfer⟩, hev⟩
      exact ⟨_, hpair, t', _, htransfer, hev⟩

/-- Every selected pair has its transfer in the log. -/
theorem PassOf.transfer_mem {l₁ l₂ : List (Event μ)} (h : PassOf env s t l₁ s' l₂)
    (hinv : Invariant s) (hrun : Running s) {rd : Read} {wr : Write}
    (hpair : ((rd.vmId, rd.state wr.pipe.otherPipe), (wr.vmId, wr.state)) ∈ s.pairedVms) :
    ∃ data : Bytes, data.length = (wr.copiable rd).toNat ∧
      ∀ ev ∈ transferLog rd wr data, ev ∈ l₁ ++ l₂ := by
  obtain ⟨t₁, m, data, htransfer, hload, _⟩ := h.pair hinv hpair
  have hlength : data.length = (wr.copiable rd).toNat := by
    rw [Memory.loadBytes_eq hload, List.length_map, List.length_range]
  refine ⟨data, hlength, fun ev hev => ?_⟩
  exact (h.mem_log hinv hrun).mpr (Or.inr ⟨rd, wr, data, hpair, hlength, ⟨t₁, htransfer⟩, hev⟩)

/-- After a pass, a step leaves a VM waiting on its pipe, unless the root exits. -/
theorem Step.keeps_waiting (h : Step env s l s') (hinv : Invariant s) (hrun : Running s)
    (hclosed : s.closedVms = []) (hpaired : s.pairedVms = []) {v : VmId} {state : VmState}
    {p : PipeId} (hv : s.states[v]? = some state) (hwait : state.waiting? = some p) :
    s'.states[v]? = some state ∨ s'.states[rootVmId]? = some .terminated := by
  have hne : ∀ {id : VmId}, s.states[id]? = some .runnable → v ≠ id := by
    rintro id hid rfl
    rw [hv, Option.some.injEq] at hid
    exact ne_runnable_of_waiting hwait hid
  cases h with
  | started => exact Or.inl hv
  | closed hstate hisClosed =>
    have hmem := mem_closedVms.mpr ⟨_, hstate, hisClosed⟩
    rw [hclosed] at hmem
    cases hmem
  | transferred hread hwrite =>
    have hmem := hrun.mem_pairedVms hread hwrite rfl rfl
    rw [hpaired] at hmem
    cases hmem
  | interrupted => exact Or.inl hv
  | answered hexec hid hchecked hanswer =>
    have hlive := mem_iff_getElem?.mpr ⟨_, hexec.state⟩
    have hanswers := hanswer.answers (hinv.resident.ran hlive) ran_machine hexec.state hid
    rw [(hanswers.others v (hne hexec.state) (mem_iff_getElem?.mpr ⟨_, hv⟩)).1]
    exact Or.inl hv
  | @exited id m code cpu l s' hexec hne' hwoken =>
    have hnotin : v ∉ (joiningVms s.states id).map Prod.fst := by
      intro hin
      obtain ⟨⟨k, addr⟩, hk, rfl⟩ := List.mem_map.mp hin
      rw [mem_joiningVms.mp hk, Option.some.injEq] at hv
      subst hv
      cases hwait
    have hstates := hwoken.frame.2.2.2.2.2.2.2.1 v
    rw [if_neg hnotin] at hstates
    simp only [purged, getElem?_erase, if_neg (hne hexec.state)]
    exact Or.inl (hstates.trans hv)
  | rootExited => exact Or.inr (by simp [completed])

omit [Memory μ] in
/-- The halves of a selected pair, where one of them is known to wait to read. -/
theorem reader_of_pair {rd : Read} {wr : Write} {v : VmId} {p : PipeId}
    {length bufferAddr lengthAddr : UInt64}
    (hpair : ((rd.vmId, rd.state wr.pipe.otherPipe), (wr.vmId, wr.state)) ∈ s.pairedVms)
    (hv : s.states[v]? = some (.waitForRead p length bufferAddr lengthAddr)) :
    v ≠ wr.vmId ∧ (v = rd.vmId → wr.pipe = p.otherPipe ∧ rd.length = length) := by
  obtain ⟨hread, hwrite, _⟩ := of_mem_pairedVms hpair
  constructor
  · rintro rfl
    rw [hv] at hwrite
    cases hwrite
  · rintro rfl
    rw [hv, Option.some.injEq] at hread
    simp only [Read.state, VmState.waitForRead.injEq] at hread
    obtain ⟨rfl, rfl, _, _⟩ := hread
    exact ⟨(PipeId.otherPipe_otherPipe _).symm, rfl⟩

omit [Memory μ] in
theorem mem_closedVms_reading {v : VmId} {p : PipeId} {length bufferAddr lengthAddr : UInt64}
    (hv : s.states[v]? = some (.waitForRead p length bufferAddr lengthAddr)) :
    v ∈ s.closedVms ↔ p.otherPipe ∉ s.pipes := by
  rw [mem_closedVms, hv]
  simp [isClosed, VmState.waiting?, ← ExtTreeMap.contains_iff_mem]

omit [Memory μ] in
/-- Without empty writes, every transfer to a read of at least one byte moves some. -/
theorem NoEmptyWrite.copiable_ne_zero (h : NoEmptyWrite s) (hrun : Running s) {rd : Read}
    {wr : Write} {p : PipeId} {length bufferAddr lengthAddr : UInt64}
    (hpair : ((rd.vmId, rd.state wr.pipe.otherPipe), (wr.vmId, wr.state)) ∈ s.pairedVms)
    (hv : s.states[rd.vmId]? = some (.waitForRead p length bufferAddr lengthAddr))
    (hlength : length ≠ 0) : wr.copiable rd ≠ 0 := by
  obtain ⟨hpipe, rfl⟩ := (reader_of_pair hpair hv).2 rfl
  obtain ⟨_, hwrite, _⟩ := of_mem_pairedVms hpair
  have hlt : wr.consumed < wr.length := by
    obtain ⟨_, _, hlt | ⟨_, hzero⟩⟩ := hrun.allowed _ _ hwrite
    · exact hlt
    · refine absurd ?_ (h _ wr.vmId _ _ _ _ wr.consumed wr.bufferAddr wr.lengthAddr hv hlength)
      rw [hwrite, Write.state, hpipe, hzero]
  have hsub := UInt64.toNat_sub_of_le _ _ (UInt64.le_of_lt hlt)
  rw [UInt64.lt_iff_toNat_lt] at hlt
  rw [Write.copiable]
  rcases Std.min_eq_or (a := rd.length) (b := wr.length - wr.consumed) with heq | heq
  · rwa [heq]
  · rw [heq]
    intro hzero
    rw [hzero, UInt64.toNat_zero] at hsub
    omega

theorem NoEmptyWrite.closed (h : NoEmptyWrite s) (hinv : Invariant s) (hrun : Running s)
    (hio : processIo none env s = .ok ⟨⟩ t l) {v : VmId} {p : PipeId}
    {length bufferAddr lengthAddr : UInt64}
    (hv : s.states[v]? = some (.waitForRead p length bufferAddr lengthAddr)) (hlength : length ≠ 0)
    (hstore : .store64 v lengthAddr 0 ∈ l) : p.otherPipe ∉ s.pipes := by
  obtain ⟨u, l₁, l₂, hhalves, rfl⟩ := processIo_halves hinv hrun hio
  rcases (hhalves.mem_log hinv hrun).mp hstore with
    ⟨id, state, hid, hstate, hev⟩ | ⟨rd, wr, data, hpair, _, _, hev⟩
  · obtain rfl : v = id := Option.some.inj (closedEvents_target hev).1
    exact (mem_closedVms_reading hv).mp hid
  · obtain ⟨hwriter, _⟩ := reader_of_pair hpair hv
    simp only [transferLog, Write.events, List.mem_append, List.mem_cons, reduceCtorEq,
      Event.store64.injEq, List.not_mem_nil, or_false, false_or] at hev
    rcases hev with ⟨rfl, _, hzero⟩ | hev
    · exact absurd hzero.symm (h.copiable_ne_zero hrun hpair hv hlength)
    · split at hev
      · simp only [List.mem_cons, Event.store64.injEq, reduceCtorEq, List.not_mem_nil,
          or_false] at hev
        exact absurd hev.1 hwriter
      · cases hev

theorem NoEmptyWrite.waits (h : NoEmptyWrite s) (hinv : Invariant s) (hrun : Running s)
    (hio : processIo none env s = .ok ⟨⟩ t l) (hstep : Step env t l' s') {v : VmId} {p : PipeId}
    {length bufferAddr lengthAddr : UInt64}
    (hv : s.states[v]? = some (.waitForRead p length bufferAddr lengthAddr)) (hlength : length ≠ 0)
    (hopen : p.otherPipe ∈ s.pipes) :
    s'.states[v]? = some (.waitForRead p length bufferAddr lengthAddr) ∨
      s'.states[rootVmId]? = some .terminated ∨
      ∃ (writeVmId : VmId) (data : Bytes), .transfer v writeVmId p.otherPipe data ∈ l ∧
        data ≠ [] := by
  by_cases hreader : ∃ pair ∈ s.pairedVms, v = pair.1.1
  · obtain ⟨u, l₁, l₂, hhalves, rfl⟩ := processIo_halves hinv hrun hio
    obtain ⟨pair, hpair, rfl⟩ := hreader
    obtain ⟨rd, wr, rfl, _⟩ := hrun.pairedVms_cases hpair
    obtain ⟨hpipe, _⟩ := (reader_of_pair hpair hv).2 rfl
    obtain ⟨data, hdata, hmem⟩ := hhalves.transfer_mem hinv hrun hpair
    have htransfer := hmem (.transfer rd.vmId wr.vmId wr.pipe data) (by simp [transferLog])
    rw [hpipe] at htransfer
    refine Or.inr (Or.inr ⟨wr.vmId, data, htransfer, ?_⟩)
    rintro rfl
    apply h.copiable_ne_zero hrun hpair hv hlength
    rw [← UInt64.toNat_inj, ← hdata]
    rfl
  · obtain ⟨hpass, _⟩ := processIo_passes hinv hrun hio
    have hnot : v ∉ s.selectedVms := by
      rw [mem_selectedVms]
      rintro (hin | ⟨pair, hpair, rfl | rfl⟩)
      · exact (mem_closedVms_reading hv).mp hin hopen
      · exact hreader ⟨pair, hpair, rfl⟩
      · obtain ⟨rd, wr, rfl, _⟩ := hrun.pairedVms_cases hpair
        exact (reader_of_pair hpair hv).1 rfl
    -- a read that is not served still waits when the machine of the round runs
    have hv' := (hpass.states v hnot).trans hv
    obtain ⟨hclosed, hpaired⟩ := processIo_exhausts hinv hrun hio
    have hinv' := Steps.invariant hpass.steps hinv
    have hrun' : Running t := hinv'.running hv' (by simp)
    rcases hstep.keeps_waiting hinv' hrun' hclosed hpaired hv' rfl with hkept | hroot
    · exact Or.inl hkept
    · exact Or.inr (Or.inl hroot)

/-- An empty write finishes the read opposite, whose other end it keeps open. -/
theorem EndOfStream.noEmptyWrite (h : EndOfStream s s' l) (hinv : Invariant s) (hrun : Running s)
    (hio : processIo none env s = .ok ⟨⟩ t l) : NoEmptyWrite s := by
  obtain ⟨u, l₁, l₂, hhalves, rfl⟩ := processIo_halves hinv hrun hio
  intro v w p length bufferAddr lengthAddr consumed bufferAddr' lengthAddr' hv hlength hw
  let rd : Read := ⟨v, length, bufferAddr, lengthAddr⟩
  let wr : Write := ⟨w, p.otherPipe, consumed, 0, bufferAddr', lengthAddr'⟩
  have hread : s.states[v]? = some (rd.state wr.pipe.otherPipe) := by
    rw [hv, PipeId.otherPipe_otherPipe]
    rfl
  have hpair : ((rd.vmId, rd.state wr.pipe.otherPipe), (wr.vmId, wr.state)) ∈ s.pairedVms :=
    hrun.mem_pairedVms hread hw rfl rfl
  have hcopiable : wr.copiable rd = 0 := by
    obtain ⟨_, _, hlt | ⟨hzero, _⟩⟩ := hrun.allowed _ _ hw
    · exact absurd hlt (Nat.not_lt_zero _)
    · have hle : wr.copiable rd ≤ 0 - consumed := Std.min_le_right
      rw [hzero] at hle
      exact UInt64.le_zero_iff.mp hle
  obtain ⟨data, _, hmem⟩ := hhalves.transfer_mem hinv hrun hpair
  have hstore := hmem (.store64 v lengthAddr (wr.copiable rd)) (by simp [transferLog, rd])
  rw [hcopiable] at hstore
  apply h.closed v p length bufferAddr lengthAddr hv hlength hstore
  exact mem_iff_getElem?.mpr ⟨w, (hrun.writing hw rfl).1⟩

theorem processIo_endOfStream (hinv : Invariant s) (hrun : Running s)
    (hio : processIo none env s = .ok ⟨⟩ t l) (hstep : Step env t l' s') :
    EndOfStream s s' l ↔ NoEmptyWrite s := by
  constructor
  · exact fun h => h.noEmptyWrite hinv hrun hio
  · intro h
    constructor
    · intro v p length bufferAddr lengthAddr hv hlength hstore
      exact h.closed hinv hrun hio hv hlength hstore
    · intro v p length bufferAddr lengthAddr hv hlength hopen
      exact h.waits hinv hrun hio hstep hv hlength hopen

omit [Memory μ] in
theorem EndOfStream.congr (hsame : SameVms env w r) (hsame' : SameVms env s' r') :
    EndOfStream w s' l ↔ EndOfStream r r' l := by
  constructor
  · rintro ⟨hclosed, hwaits⟩
    rw [hsame.states, hsame.pipes] at hclosed hwaits
    rw [hsame'.states] at hwaits
    exact ⟨hclosed, hwaits⟩
  · rintro ⟨hclosed, hwaits⟩
    rw [← hsame.states, ← hsame.pipes] at hclosed hwaits
    rw [← hsame'.states] at hwaits
    exact ⟨hclosed, hwaits⟩

/-- A round that goes through, or is interrupted, begins with a pass that goes through. -/
theorem iterate_pass {pause : Pause} {limitCycles : ℕ} :
    (iterate cap env pause limitCycles s).Meets
      (fun _ _ _ => ∃ t l, processIo cap env s = .ok ⟨⟩ t l)
      (fun e _ _ => e.Interrupt → ∃ t l, processIo cap env s = .ok ⟨⟩ t l) True := by
  rw [iterate, emit_bind_run]
  apply Meets.after
  have hfails := (regular_processIo (P := fun _ => False) (B := False) cap env).fails s
  rw [bind_run]
  cases hio : processIo cap env s with
  | panic => trivial
  | err e s' l =>
    rw [hio] at hfails
    exact fun he => absurd he hfails.2.1
  | ok _ t l =>
    apply Meets.after
    exact meets_of_forall (fun _ _ _ => ⟨t, l, rfl⟩) (fun _ _ _ _ => ⟨t, l, rfl⟩) trivial

/-- A round from `s` to `s'` that goes through or is interrupted. -/
def RoundTo (cap : Option ℕ) (env : Env μ κ) (s s' : Scheduler μ κ) : Prop :=
  ∃ (pause : Pause) (limitCycles : ℕ) (l : List (Event μ)),
    (∃ consumedCycles, iterate cap env pause limitCycles s = .ok consumedCycles s' l) ∨
      ∃ e, iterate cap env pause limitCycles s = .err e s' l ∧ e.Interrupt

/-- Each round, from any reachable scheduler whose root has not exited, ends the
streams of its readers properly exactly when no read of at least one byte waits
opposite to a write of none. -/
theorem reads_end (env : Env μ κ) {tr : List (Event μ)} {s s' : Scheduler μ κ}
    (h : Reachable maxInstantiatedVms env tr s) (hroot : s.states[rootVmId]? ≠ some .terminated)
    (hround : RoundTo maxInstantiatedVms env s s') :
    ∃ s₁ l, processIo maxInstantiatedVms env s = .ok ⟨⟩ s₁ l ∧
      (EndOfStream s s' l ↔ NoEmptyWrite s) := by
  obtain ⟨pause, limitCycles, l, hiterate⟩ := hround
  have hpass : ∃ s₁ l₁, processIo maxInstantiatedVms env s = .ok ⟨⟩ s₁ l₁ := by
    have hmeets : (iterate maxInstantiatedVms env pause limitCycles s).Meets _ _ _ := iterate_pass
    rcases hiterate with ⟨c, hiterate⟩ | ⟨e, hiterate, he⟩
    · rw [hiterate] at hmeets
      exact hmeets
    · rw [hiterate] at hmeets
      exact hmeets he
  obtain ⟨s₁, l₁, hio⟩ := hpass
  refine ⟨s₁, l₁, hio, ?_⟩
  rcases h.driven two_le_maxInstantiatedVms with ⟨rfl, _⟩ | ⟨r, hr⟩
  · have hnone : ∀ {v : VmId} {state : VmState}, (new : Scheduler μ κ).states[v]? ≠ some state := by
      simp [new]
    apply iff_of_true
    · exact ⟨fun _ _ _ _ _ hv => absurd hv hnone, fun _ _ _ _ _ hv => absurd hv hnone⟩
    · exact fun _ _ _ _ _ _ _ _ _ hv => absurd hv hnone
  have hrun : Running r := hr.2.invariant.phase.resolve_right fun hdone => hroot (by
    rw [hr.1.same.states, hdone, getElem?_insert, if_pos rfl])
  have hround : ∃ r', RoundOf env limitCycles r r' l ∧ Refines maxInstantiatedVms env (tr ++ l)
      s' r' := by
    rcases hiterate with ⟨c, hiterate⟩ | ⟨e, hiterate, he⟩
    · obtain ⟨r', _, hround, hr'⟩ := hr.iterated two_le_maxInstantiatedVms hrun hiterate
      exact ⟨r', hround, hr'⟩
    · obtain ⟨r', _, hround, hr'⟩ := hr.interrupted two_le_maxInstantiatedVms hrun hiterate he
      exact ⟨r', hround, hr'⟩
  obtain ⟨r', ⟨r₁, l₂, l₃, hio', _, hstep, _⟩, hr'⟩ := hround
  have hsim := tracks_processIo two_le_maxInstantiatedVms s r (hr.2.linked hr.1)
  rw [hio] at hsim
  obtain ⟨r₂, hr₂, _⟩ := hsim
  rw [hio'] at hr₂
  cases hr₂
  rw [EndOfStream.congr hr.1.same hr'.1.same,
    processIo_endOfStream hr.2.invariant hrun hio' hstep, NoEmptyWrite, NoEmptyWrite,
      hr.1.same.states]

/-- A reader that is served by a writer with bytes to give. -/
theorem reads_end_relay : ∃ tr s s', Reachable maxInstantiatedVms relayEnv tr s ∧
    RoundTo maxInstantiatedVms relayEnv s s' ∧ s.selectedVms = [0, 1] ∧
    ∃ s₁ l, processIo maxInstantiatedVms relayEnv s = .ok ⟨⟩ s₁ l ∧
      (EndOfStream s s' l ↔ NoEmptyWrite s) := by
  obtain ⟨tr, s, h, hs⟩ := exists_reachable maxInstantiatedVms relayEnv
    (.boot :: List.replicate 4 (.round none 99)) (fun _ s => s.selectedVms == [0, 1] &&
      s.states[rootVmId]? != some .terminated &&
      (iterate maxInstantiatedVms relayEnv none 99 s).isOk) (by decide +kernel)
  simp only [Bool.and_eq_true, beq_iff_eq, bne_iff_ne] at hs
  obtain ⟨⟨hselected, hroot⟩, hok⟩ := hs
  obtain ⟨consumedCycles, s', l, hiterate⟩ := (isOk_eq_true _).mp hok
  have hround : RoundTo maxInstantiatedVms relayEnv s s' :=
    ⟨none, 99, l, Or.inl ⟨consumedCycles, hiterate⟩⟩
  exact ⟨tr, s, s', h, hround, hselected, reads_end relayEnv h hroot hround⟩

/-- A root that passes the write end of a pipe to the VM it spawns and reads eight
bytes from it. The spawned VM writes none and goes on to another call. -/
def emptyWriteEnv : Env Ram (Cpu Ram) :=
  scriptEnv 1 (pipeImage 3) 40 fun
    | 0 => pipeCall 0x100
    | 1 => spawnCall 0 0x200
    | 2 => readCall 2 0x400 0x500
    | 100 => writeCall 3 0x700 0x600
    | 101 => pipeCall 0x100
    | _ => .exit 0

/-- A round, and its pass, in which a read of the root finishes with no bytes while the
write end `3` stays open. -/
def finishesEmpty (round : Outcome Error (Event Ram) (Scheduler Ram (Cpu Ram)) ℕ)
    (pass : Outcome Error (Event Ram) (Scheduler Ram (Cpu Ram)) Unit) : Bool :=
  match round, pass with
  | .ok _ s' _, .ok _ s₁ [_, _, .store64 id addr value, .setA0 id' code, _, _] =>
    s'.pipes.contains 3 && s₁.states[(0 : VmId)]? == some .runnable && id == 0 &&
      addr == 0x500 && value == 0 && id' == 0 && code == success
  | _, _ => false

/-- The read of eight bytes succeeds with none while the write end is open. -/
theorem reads_end_emptyWrite : ∃ tr s s' s₁ l, Reachable maxInstantiatedVms emptyWriteEnv tr s ∧
    RoundTo maxInstantiatedVms emptyWriteEnv s s' ∧
    processIo maxInstantiatedVms emptyWriteEnv s = .ok ⟨⟩ s₁ l ∧
    s.states[(0 : VmId)]? = some (.waitForRead 2 8 0x400 0x500) ∧
    s₁.states[(0 : VmId)]? = some .runnable ∧ .store64 0 0x500 0 ∈ l ∧ .setA0 0 success ∈ l ∧
    (3 : PipeId) ∈ s.pipes ∧ (3 : PipeId) ∈ s'.pipes ∧ ¬ EndOfStream s s' l := by
  obtain ⟨tr, s, h, hs⟩ := exists_reachable maxInstantiatedVms emptyWriteEnv
    (.boot :: List.replicate 4 (.round none 99)) (fun _ s =>
      s.states[(0 : VmId)]? == some (.waitForRead 2 8 0x400 0x500) && s.pipes.contains 3 &&
      s.states[rootVmId]? != some .terminated &&
      finishesEmpty (iterate maxInstantiatedVms emptyWriteEnv none 99 s)
        (processIo maxInstantiatedVms emptyWriteEnv s)) (by decide +kernel)
  simp only [Bool.and_eq_true, beq_iff_eq, ExtTreeMap.contains_iff_mem] at hs
  obtain ⟨⟨⟨hread, hopen⟩, _⟩, hs⟩ := hs
  unfold finishesEmpty at hs
  split at hs
  · rename_i consumedCycles s' l' _ s₁ e₁ e₂ id addr value id' code e₃ e₄ hiterate hio
    simp only [Bool.and_eq_true, beq_iff_eq, ExtTreeMap.contains_iff_mem] at hs
    obtain ⟨⟨⟨⟨⟨⟨hopen', hrunnable⟩, rfl⟩, rfl⟩, rfl⟩, rfl⟩, rfl⟩ := hs
    have hround : RoundTo maxInstantiatedVms emptyWriteEnv s s' :=
      ⟨none, 99, l', Or.inl ⟨consumedCycles, hiterate⟩⟩
    refine ⟨tr, s, s', s₁, _, h, hround, hio, hread, hrunnable, by simp, by simp, hopen, hopen', ?_⟩
    intro hend
    exact hend.closed 0 2 8 0x400 0x500 hread (by decide) (by simp) hopen
  · cases hs

end DeterministicScheduler.Scheduler
