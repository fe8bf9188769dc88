import DeterministicScheduler.Assertions
import DeterministicScheduler.Crashes
import DeterministicScheduler.Faultless
import DeterministicScheduler.WorkloadRuns

/-!
# Rounds of a workload

A round of a workload goes through, is interrupted, or counts more cycles than 64 bits hold.
A spawn is accepted because a VM owns the pipes that it passes on.
-/
namespace DeterministicScheduler.DataGraph

open ProgramLogic Program Outcome EscapeEncoding Std Scheduler

instance : TotalMemory GuestMemory where
  loadBytes _ _ _ := ⟨_, rfl⟩
  store8 _ _ _ := ⟨_, rfl⟩
  store64 _ _ _ := ⟨_, rfl⟩
  storeBytes _ _ _ := ⟨_, rfl⟩

variable {κ : Type} {env : Env GuestMemory κ} {data : Data} {P : Progress}
  {tr l : List (Event GuestMemory)} {s s' : Scheduler GuestMemory κ} {i n q t : ℕ} {v : VmId}

/-- Above a VM that is not spawned there is one spawn that comes next. -/
theorem Progress.Sound.next_spawn (hs : P.Sound data) (hw : Wired n data) (hroot : P.vm 0 ≠ none)
    (t : ℕ) (ht : t ≤ n) (hnone : P.vm t = none) :
    ∃ (c : ℕ) (B : ℕ → Prop), ClosedUp data B ∧ B t ∧ ∀ sp ∈ data.spawns, B sp.child →
      P.vm sp.child = none → P.vm sp.fromVm ≠ none → sp.child = c := by
  induction t using Nat.strong_induction_on with
  | _ t ih =>
    have hpos : 0 < t := by
      refine Nat.pos_of_ne_zero ?_
      rintro rfl
      exact hroot hnone
    obtain ⟨sp, hsp, rfl⟩ := hw.spawned t hpos ht
    by_cases hborn : P.vm sp.fromVm = none
    · have holder := (hw.older sp hsp).1
      obtain ⟨c, B, hup, hfrom, hnext⟩ := ih sp.fromVm holder (by omega) hborn
      refine ⟨c, fun x => B x ∨ x = sp.child, ?_, .inr rfl, ?_⟩
      · rintro sp' hsp' (hin | heq)
        · exact .inl (hup sp' hsp' hin)
        · obtain rfl := hw.child_inj hsp' hsp heq
          exact .inl hfrom
      · rintro sp' hsp' (hin | heq) hunborn hparent
        · exact hnext sp' hsp' hin hunborn hparent
        · obtain rfl := hw.child_inj hsp' hsp heq
          exact absurd hborn hparent
    · refine ⟨sp.child, fun x => P.vm x ≠ none ∨ x = sp.child, ?_, .inr rfl, ?_⟩
      · rintro sp' hsp' (hin | heq)
        · exact .inl (hs.closedUp sp' hsp' hin)
        · obtain rfl := hw.child_inj hsp' hsp heq
          exact .inl hborn
      · rintro sp' hsp' (hin | heq) hunborn -
        · exact absurd hunborn hin
        · exact heq

section Rounds

variable (hu : Underway n data P tr s) (hw : Wired n data) (hrun : Running s)

include hu hw

/-- A VM that passes a pipe on owns it. -/
theorem Underway.owns_passed (hi : P.vm i = some v) {sp : Spawn} (hsp : sp ∈ data.spawns)
    (hfrom : sp.fromVm = i) (hunborn : P.vm sp.child = none) (hq : q ∈ sp.pipes) {id : PipeId}
    (hid : P.pipe q = some id) : s.pipes[id]? = some v := by
  subst hfrom
  obtain ⟨t, hused⟩ := hw.used _ q (hw.passes sp hsp q hq)
  have habove := hw.above q t hused
  have hparent : P.vm sp.fromVm ≠ none := by simp [hi]
  have hnone : P.vm t = none := by
    by_contra hborn
    exact habove sp hsp hq _ hu.sound.closedUp hborn hunborn
  have ht : t ≤ n := by
    obtain ⟨w, hmem, ⟨-, rfl⟩ | ⟨-, rfl⟩⟩ := hused
    · exact (hw.ends w hmem).2.1
    · exact (hw.ends w hmem).2.2
  obtain ⟨j, u, hj, hpipe, hserves⟩ := hu.attends.owner q t id hid hused fun v hv => by
    rw [hnone] at hv
    cases hv
  have hroot : P.vm 0 ≠ none := by simp [hu.attends.root]
  obtain ⟨c, B, hup, hB, hnext⟩ := hu.sound.next_spawn hw hroot t ht hnone
  rcases hserves with rfl | ⟨sp', hsp', rfl, hq', hunborn'⟩
  · rw [hj] at hnone
    cases hnone
  · have hparent' : P.vm sp'.fromVm ≠ none := by simp [hj]
    have hc := hnext sp hsp (habove sp hsp hq B hup hB) hunborn hparent
    have hc' := hnext sp' hsp' (habove sp' hsp' hq' B hup hB) hunborn' hparent'
    obtain rfl := hw.child_inj hsp hsp' (hc.trans hc'.symm)
    rw [hpipe, ← hj, hi]

/-- A VM spawns with its own pipes. -/
theorem Underway.spawn_owned (hi : P.vm i = some v) {locals : Locals} {bytes : Ram}
    {args : SpawnArgs} (h : Posts data P i v (P.left i) locals bytes (.spawn v args)) :
    s.firstForeignPipe v args.pipes = none := by
  obtain ⟨sp, todo, _, -, hvm, hleft, hids, -⟩ := h.of_spawn
  obtain ⟨hsp, -⟩ := spawn_mem_ops.mp (hu.sound.head_mem hleft)
  have hunborn : P.vm sp.child = none := by
    refine (hu.sound.spawned sp hsp).mpr ?_
    rw [hvm, hleft]
    exact List.mem_cons_self
  rw [firstForeignPipe, List.find?_eq_none]
  intro id hid
  have hmem : some id ∈ sp.pipes.map P.pipe := hids ▸ List.mem_map_of_mem hid
  obtain ⟨q, hq, heq⟩ := List.mem_map.mp hmem
  have howner := hu.owns_passed hw hi hsp hvm hunborn hq heq
  simp [ownsPipe, howner]

include hrun

/-- A pass over the pipes of a workload never finishes a read or a write early. -/
theorem Underway.closedVms_eq (hinv : Invariant s) : s.closedVms = [] := by
  rw [List.eq_nil_iff_forall_not_mem]
  intro k hk
  obtain ⟨state, hstate, hclosed⟩ := mem_closedVms.mp hk
  obtain ⟨m, hm⟩ := hinv.resident.machine (mem_iff_getElem?.mpr ⟨_, hstate⟩)
  rw [hu.not_closed hw hrun hstate hm] at hclosed
  cases hclosed

end Rounds

/-- What steps do to a workload. -/
theorem Underway.steps (henv : RunsMain data env) (hw : Fits n data) (hu : Underway n data P tr s)
    (hinv : Invariant s) (hsteps : Steps env s l s') :
    Invariant s' ∧ ∃ P', Underway n data P' (tr ++ l) s' := by
  refine hsteps.keeps (I := fun tr r => Invariant r ∧ ∃ P', Underway n data P' tr r) ?_
    ⟨hinv, P, hu⟩
  rintro tr r l r' ⟨hinv, P, hu⟩ hstep
  obtain ⟨P', -, hu'⟩ := hu.step henv hw hinv hstep
  exact ⟨hstep.invariant hinv, P', hu'⟩

section Fails

variable (henv : RunsMain data env) (hw : Fits n data) (hu : Underway n data P tr s)
  (hrun : Running s) (hversion : env.selectVersion = .ok ())

include henv hw hu hrun hversion

/-- The answer to a VM of a workload does not fail. -/
theorem Underway.message_not_err {m : Machine GuestMemory} {cpu : Cpu GuestMemory} {msg : Message}
    (hexec : Executes env s v m (.error .yield) cpu [msg]) {e : Error} :
    processMessage none env msg (s.ran v m (.error .yield) cpu) ≠ .err e s' l := by
  obtain ⟨i, hi, -, hresult⟩ := hu.executed henv hw hrun hexec
  obtain ⟨-, msg', hmsg, hposts⟩ :=
    ((hresult .yield rfl).2 (by decide)).resolve_left (by decide)
  obtain rfl : msg = msg' := by simpa using hmsg
  have hid : msg.vmId = v := hposts.performs.1
  have hin : msg.vmId ∈ (s.ran v m (.error .yield) cpu).instantiated := by
    rw [hid]
    exact mem_insert.mpr (.inl rfl)
  refine processMessage_not_err hin ?_
  rintro u args rfl
  obtain rfl : u = v := hid
  obtain ⟨code, length, hcode, -⟩ := henv.code
  obtain ⟨hpiece, hoffset, hlength⟩ := hposts.program
  obtain ⟨bytes, hload⟩ := henv.loadProgram args.dataPieceId args.offset code args.argv
  have hfound : env.txData.loadData args.dataPieceId args.offset args.length =
      .ok (code, length) := by
    rw [hpiece, hoffset, hlength, hcode]
  exact ⟨hu.spawn_owned hw.toWired hi hposts, hversion, _, _, code, length, _, bytes, hfound,
    hload, rfl, rfl⟩

/-- A round of the reference fails by an interrupt only, or by a sum of cycles beyond 64 bits. -/
theorem Underway.iterate_fails (hinv : Invariant s) (pause : Pause) (limitCycles : ℕ) :
    (iterate none env pause limitCycles s).Meets (fun _ _ _ => True)
      (fun e _ _ => e.Interrupt ∨ e = .cyclesOverflow) True := by
  simp only [iterate, emit_bind_run]
  refine Meets.after ?_
  rw [bind_run]
  cases hio : processIo none env s with
  | panic => trivial
  | err e s' l => exact absurd hio (processIo_not_err hinv.resident)
  | ok a s₁ l₁ =>
    obtain ⟨hpass, -⟩ := processIo_passes hinv hrun hio
    obtain ⟨hinv₁, P₁, hu₁⟩ := hu.steps henv hw hinv hpass.steps
    refine Meets.after ?_
    simp only [get_bind_run]
    cases hid : vmIdToRun s₁.states with
    | none =>
      have hdead := hrun.deadlocked hinv hio hid
      exact absurd (not_deadlocked hu hw.toWired hrun hinv hdead) id
    | some id =>
      refine meets_bind ((runVm_meets hinv₁ hid pause limitCycles).mono (fun _ _ _ h => h)
        (fun e s' l he => .inr he) (fun h => h)) ?_
      rintro ⟨result, consumedCycles⟩ s₂ l₂
        ⟨m, cpu, posted, hexec, hmachine, rfl, rfl, rfl, hok, hstops⟩
      have hrun₁ : Running s₁ := hinv₁.running hexec.state (by simp)
      have hinv₂ := hinv₁.ran hexec
      have hlive : id ∈ (s₁.ran id m result cpu).states := mem_iff_getElem?.mpr ⟨_, hexec.state⟩
      obtain ⟨i, hi, -, hresult⟩ := hu₁.executed henv hw hrun₁ hexec
      have hboxEmpty := hinv₂.box
      rw [bind_run]
      simp only [processMessageBox, get_bind_run, modify_bind_run, ran_box hinv₁]
      cases result with
      | ok code =>
        obtain rfl := hok rfl
        simp only [forM_nil_run, hboxEmpty, List.isEmpty_nil, if_true]
        refine Meets.after ?_
        rw [bind_run]
        cases hterm : terminateVm none env id code (s₁.ran id m (.ok code) cpu) with
        | panic => trivial
        | err e s' l => exact absurd hterm (terminateVm_not_err hinv₂.resident hlive)
        | ok _ s' l => trivial
      | error e =>
        by_cases he : e.Interrupt ∨ e = .cyclesOverflow
        · have hnil : posted = [] := by
            rcases hstops e rfl with ⟨-, rfl⟩ | ⟨-, rfl⟩ | ⟨rfl, -⟩
            · rfl
            · rfl
            · exact absurd he (by decide)
          have hne : e ≠ .yield := by
            rintro rfl
            exact absurd he (by decide)
          subst hnil
          simp only [forM_nil_run, hboxEmpty, List.isEmpty_nil, if_true, if_neg hne]
          exact he
        rw [not_or] at he
        obtain ⟨rfl, msg, rfl, hposts⟩ := ((hresult e rfl).2 he.1).resolve_left he.2
        rw [forM_cons, bind_run]
        cases hmessage : processMessage none env msg (s₁.ran id m (.error .yield) cpu) with
        | panic => trivial
        | err e s' l => exact absurd hmessage (hu₁.message_not_err henv hw hrun₁ hversion hexec)
        | ok _ s' l =>
          refine Meets.after ?_
          split
          · trivial
          · trivial

end Fails

/-- An environment that runs a workload of the generator, whose parameters are 32 bits wide. -/
structure RunsWorkload (spawns : ℕ) (data : Data) (env : Env GuestMemory κ) : Prop where
  main : RunsMain data env
  spawns_lt : spawns < 2 ^ 32
  generated : ∃ daggy draws writes convergingThreshold, writes < 2 ^ 32 ∧
    generateDataGraph daggy draws spawns writes convergingThreshold = some data

theorem RunsWorkload.fits {spawns : ℕ} (h : RunsWorkload spawns data env) : Fits spawns data := by
  obtain ⟨daggy, draws, writes, convergingThreshold, hwrites, hdata⟩ := h.generated
  obtain ⟨hwired, hlength, -⟩ := generateDataGraph_wired hdata
  have hspawns := h.spawns_lt
  refine { hwired with vms := by omega, listed := ?_ }
  intro sp hsp
  have hle := hlength sp hsp
  omega

theorem bootsRoot_of_bootRoot {cap : Option ℕ} (h : bootRoot cap env new = .ok ⟨⟩ s' l) :
    env.BootsRoot := by
  have hempty : (new : Scheduler GuestMemory κ).states.isEmpty = true := rfl
  rw [bootRoot, get_bind_run, hempty, if_pos rfl] at h
  obtain ⟨_, _, _, _, hboot, -⟩ := bind_eq_ok.mp h
  rcases new_unbooted.bootVm cap env with ⟨-, hpanic⟩ | ⟨-, -, _, _, herr, -⟩ | ⟨-, hboots, -⟩
  · cases hboot.symm.trans hpanic
  · cases hboot.symm.trans herr
  · exact hboots

/-- A scheduler that holds its root has booted it. -/
theorem bootsRoot_of_reachable {cap : Option ℕ} (hcap : ∀ c, cap = some c → 2 ≤ c)
    (h : Reachable cap env tr s) (hroot : rootVmId ∈ s.states) : env.BootsRoot := by
  have hkeeps : Driven cap env tr s ∧ (rootVmId ∈ s.states → env.BootsRoot) := by
    refine h.keeps (I := fun tr s => Driven cap env tr s ∧ (rootVmId ∈ s.states → env.BootsRoot))
      ?_ ⟨.inl ⟨rfl, rfl⟩, fun hin => by simp [new] at hin⟩
    rintro tr s l s' ⟨hdriven, hs⟩ hmove
    refine ⟨hmove.driven hcap hdriven, fun hin => ?_⟩
    rcases hdriven with ⟨rfl, -⟩ | ⟨r, hlinked, hrun⟩
    · cases hmove with
      | booted hboot => exact bootsRoot_of_bootRoot hboot
      | iterated hroot => simp [new] at hroot
      | interrupted hroot => simp [new] at hroot
      | suspended hsuspend =>
        rw [(new_suspended hsuspend).2] at hin
        simp [new] at hin
    · refine hs ?_
      rw [hlinked.same.states]
      exact hrun.invariant.root
  exact hkeeps.2 hroot

/-- A scheduler that runs a workload is new, or it is in the middle of the workload as far as
the reference goes. -/
theorem underway_of_reachable {cap : Option ℕ} (hcap : ∀ c, cap = some c → 2 ≤ c) {spawns : ℕ}
    (hw : RunsWorkload spawns data env) (h : Reachable cap env tr s) : (s = new ∧ tr = []) ∨
      ∃ r P, Linked cap env s r ∧ Run env tr r ∧ Underway spawns data P tr r := by
  rcases h.driven hcap with hnew | ⟨r, hlinked, hrun⟩
  · exact .inl hnew
  · obtain ⟨P, hu⟩ := underway_of_run hw.main hw.fits hrun
    exact .inr ⟨r, P, hlinked, hrun, hu⟩

/-- An environment in which every program is the one of a workload and each instruction costs
one cycle. -/
def workloadEnv (data : Data) : Env GuestMemory (Cpu GuestMemory) where
  txData := scriptTx 1
  selectVersion := .ok ()
  loadProgram _ _ _ argv := .ok (mainStart argv, 40)
  makeSnapshot m := .ok m
  resumeSnapshot m := .ok m
  cost _ := 1
  next := mainNext data
  syscall c := .fail (.other 0) c
  storeCellData _ _ _ _ _ := .error .memOutOfBound
  cost_pos _ := Nat.one_pos
  resume_make _ h := h.symm ▸ rfl
  makeSnapshot_error h := by cases h
  resumeSnapshot_error h := by cases h
  loadProgram_error h := by cases h
  next_error {c e c'} h := by
    unfold mainNext at h
    split at h <;> cases h
    decide
  syscall_error h := by
    cases h
    decide
  storeCellData_error h := by
    cases h
    decide

theorem runsWorkload_chain : RunsWorkload 2 chainData (workloadEnv chainData) where
  main := ⟨rfl, fun _ _ _ _ => ⟨_, rfl⟩, _, _, rfl, by decide⟩
  spawns_lt := by decide
  generated := ⟨newestFirst, chainDraws, 2, 3, by decide, generateDataGraph_chain⟩

theorem snapshotsTotal_workload (data : Data) : (workloadEnv data).SnapshotsTotal :=
  fun m => ⟨m, rfl⟩

theorem bootsRoot_workload (data : Data) : (workloadEnv data).BootsRoot :=
  ⟨rfl, _, _, _, _, rfl, rfl⟩

end DeterministicScheduler.DataGraph
