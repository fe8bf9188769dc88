import DeterministicScheduler.Workload

/-!
# The program goes on as its operations say

Wherever the program of a wired workload stands, it goes on to another such position, makes the
system call of its first operation, or exits with code zero when none is left.
-/
namespace DeterministicScheduler.DataGraph

open ProgramLogic Program Outcome EscapeEncoding

variable {data : Data} {P : Progress} {i n : ℕ} {v : VmId} {left : List Op} {locals : Locals}
  {a0 : UInt64} {bytes : Ram} {msg : Message}

theorem ok_bind {ε α β : Type} (a : α) (f : α → Except ε β) : (Except.ok a >>= f) = f a := rfl

theorem Knows.find {made : List Pipe} {current : List (ℕ × PipeId)} {q : ℕ}
    (h : Knows data P i made current) (hq : Held data made i q) :
    ∃ id, pipesFind current q = .ok id ∧ P.pipe q = some id := by
  obtain ⟨id, hmem⟩ := h.held q hq
  cases hfind : current.find? fun pipe => pipe.1 == q with
  | none =>
    have hnone := List.find?_eq_none.mp hfind (q, id) hmem
    simp at hnone
  | some found =>
    obtain ⟨q', id'⟩ := found
    have hkey := List.find?_some hfind
    obtain rfl : q' = q := by simpa using hkey
    exact ⟨id', by rw [pipesFind, hfind], h.ids _ _ (List.mem_of_find?_eq_some hfind)⟩

theorem Knows.findAll {made : List Pipe} {current : List (ℕ × PipeId)} {qs : List ℕ}
    (h : Knows data P i made current) (hqs : ∀ q ∈ qs, Held data made i q) :
    ∃ ids, qs.mapM (pipesFind current) = .ok ids ∧ ids.map some = qs.map P.pipe := by
  induction qs with
  | nil => exact ⟨[], rfl, rfl⟩
  | cons q qs ih =>
    obtain ⟨id, hfind, hid⟩ := h.find (hqs q List.mem_cons_self)
    obtain ⟨ids, hall, hids⟩ := ih fun q' hq' => hqs q' (List.mem_cons_of_mem _ hq')
    refine ⟨id :: ids, ?_, ?_⟩
    · rw [List.mapM_cons, hfind, hall]
      rfl
    · rw [List.map_cons, List.map_cons, hids, hid]

/-- What a workload must be within so that its indices and buffers fit. -/
structure Fits (n : ℕ) (data : Data) : Prop extends Wired n data where
  vms : n < 2 ^ 63
  listed : ∀ s ∈ data.spawns, s.pipes.length < 2 ^ 35

variable (hw : Fits n data)

include hw

theorem Fits.toNat_child {s : Spawn} (hs : s ∈ data.spawns) :
    (UInt64.ofNat s.child).toNat = s.child := by
  have hle := (hw.older s hs).2
  have hn := hw.vms
  rw [UInt64.toNat_ofNat', Nat.mod_eq_of_lt (by omega)]

/-- A VM finds out which one it is and which pipes it was passed. -/
theorem Starts.decode {argv : List Bytes} (h : Starts data P i argv) :
    ∃ locals, decodeArguments data argv = .ok { locals with stage := .pipes data.pipes } ∧
      Creating data P i data.pipes locals := by
  rcases h with ⟨rfl, rfl⟩ | ⟨s, hs, rfl, ids, hids, rfl⟩
  · refine ⟨{ vmIndex := 0, currentPipes := [], spawnedVms := [], stage := .pipes data.pipes }, rfl,
      rfl, ⟨[], rfl, fun q id hmem => (by cases hmem), ?_⟩, rfl⟩
    rintro q (⟨s, hs, hchild, -⟩ | ⟨p, hp, -⟩)
    · have := hw.older s hs
      omega
    · cases hp
  · have hlength : ids.length = s.pipes.length := by
      simpa using congrArg List.length hids
    have hat : ∀ (k : ℕ) (id : PipeId), ids[k]? = some id → wordAt (wordsBytes ids) k = id := by
      intro k id hid
      refine wordAt_wordsBytes hid ?_
      have hlt := (List.getElem?_eq_some_iff.mp hid).1
      have hlisted := hw.listed s hs
      unfold segmentSize
      omega
    have hpipe : ∀ (k q : ℕ), s.pipes[k]? = some q → ∃ id, ids[k]? = some id ∧ P.pipe q =
        some id := by
      intro k q hq
      have hk := congrArg (fun l => l[k]?) hids
      simp only [List.getElem?_map, hq, Option.map_some] at hk
      obtain ⟨id, hid, heq⟩ := Option.map_eq_some_iff.mp hk
      exact ⟨id, hid, heq.symm⟩
    have hindex : wordAt (wordBytes (UInt64.ofNat s.child)) 0 = UInt64.ofNat s.child := by
      have hbytes : wordBytes (UInt64.ofNat s.child) = wordsBytes [UInt64.ofNat s.child] :=
        (List.append_nil _).symm
      rw [hbytes]
      exact wordAt_wordsBytes rfl (by decide)
    have hfound : data.spawns.find? (fun spawn => spawn.child == s.child) = some s := by
      cases hfind : data.spawns.find? fun spawn => spawn.child == s.child with
      | none =>
        have hnone := List.find?_eq_none.mp hfind s hs
        simp at hnone
      | some s' =>
        have hchild := List.find?_some hfind
        rw [beq_iff_eq] at hchild
        rw [hw.child_inj (List.mem_of_find?_eq_some hfind) hs hchild]
    have hwords : ¬ (wordsBytes ids).length ≠ s.pipes.length * 8 := by
      rw [length_wordsBytes, hlength, Nat.mul_comm]
      exact not_not_intro rfl
    refine ⟨{
      vmIndex := s.child
      currentPipes := s.pipes.zipIdx.map fun entry => (entry.1, wordAt (wordsBytes ids) entry.2)
      spawnedVms := []
      stage := .pipes data.pipes }, ?_, rfl, ⟨[], rfl, ?_, ?_⟩, rfl⟩
    · have hfound' : data.spawns.find? (fun spawn => spawn.child ==
          (wordAt (wordBytes (UInt64.ofNat s.child)) 0).toNat) = some s := by
        rw [hindex, hw.toNat_child hs, hfound]
      have hresult : decodeArguments data [encode (wordBytes (UInt64.ofNat s.child)),
          encode (wordsBytes ids)] = .ok {
            vmIndex := (wordAt (wordBytes (UInt64.ofNat s.child)) 0).toNat
            currentPipes := s.pipes.zipIdx.map fun entry =>
              (entry.1, wordAt (wordsBytes ids) entry.2)
            spawnedVms := []
            stage := .pipes data.pipes } := by
        simp only [decodeArguments, decodeArg_encode, ok_bind, length_wordBytes, ne_eq,
          not_true_eq_false, if_false, hfound', if_neg hwords]
        rfl
      rw [hresult, hindex, hw.toNat_child hs]
    · intro q id hmem
      simp only [List.mem_map, Prod.exists, List.mk_mem_zipIdx_iff_getElem?, Prod.mk.injEq] at hmem
      obtain ⟨q', k, hk, rfl, rfl⟩ := hmem
      obtain ⟨id, hid, hpipe⟩ := hpipe k q' hk
      rw [hat k id hid, hpipe]
    · rintro q (⟨s', hs', hchild, hq⟩ | ⟨p, hp, -⟩)
      · obtain rfl := hw.child_inj hs' hs hchild
        obtain ⟨k, hk⟩ := List.mem_iff_getElem?.mp hq
        refine ⟨_, List.mem_map.mpr ⟨(q, k), ?_, rfl⟩⟩
        rwa [List.mk_mem_zipIdx_iff_getElem?]
      · cases hp

omit hw

section Lists

variable {p : Pipe} {pipes : List Pipe} {s : Spawn} {spawns : List Spawn} {w : Write}
  {writes : List Write}

theorem creates_mine (h : p.vm = i) : creates i (p :: pipes) = .create p :: creates i pipes := by
  simp [creates, h]

theorem creates_other (h : p.vm ≠ i) : creates i (p :: pipes) = creates i pipes := by
  simp [creates, h]

theorem spawnsFrom_mine (h : s.fromVm = i) :
    spawnsFrom i (s :: spawns) = .spawn s :: spawnsFrom i spawns := by
  simp [spawnsFrom, h]

theorem spawnsFrom_other (h : s.fromVm ≠ i) : spawnsFrom i (s :: spawns) = spawnsFrom i spawns := by
  simp [spawnsFrom, h]

theorem moves_mine (h : w.fromVm = i ∨ w.toVm = i) :
    moves i (w :: writes) = .move w :: moves i writes := by
  simp [moves, h]

theorem moves_other (h : w.fromVm ≠ i) (h' : w.toVm ≠ i) : moves i (w :: writes) =
    moves i writes := by
  simp [moves, h, h']

theorem childrenOf_mine (h : s.fromVm = i) :
    childrenOf i (spawns ++ [s]) = childrenOf i spawns ++ [s.child] := by
  simp [childrenOf, h]

theorem childrenOf_other (h : s.fromVm ≠ i) : childrenOf i (spawns ++ [s]) =
    childrenOf i spawns := by
  simp [childrenOf, h]

end Lists

theorem Creating.skip {p : Pipe} {todo : List Pipe} (h : Creating data P i (p :: todo) locals)
    (hvm : p.vm ≠ i) : Creating data P i todo locals := by
  obtain ⟨done, hdata, hknows⟩ := h.knows
  refine ⟨h.index, ⟨done ++ [p], by simp [hdata], hknows.ids, ?_⟩, h.spawned⟩
  rintro q (hpassed | ⟨p', hp', hvm', hq⟩)
  · exact hknows.held q (.inl hpassed)
  · rcases List.mem_append.mp hp' with hp' | hp'
    · exact hknows.held q (.inr ⟨p', hp', hvm', hq⟩)
    · rw [List.mem_singleton] at hp'
      exact absurd (hp' ▸ hvm') hvm

/-- The ids of a pair of pipes are put beside those at hand. -/
theorem Creating.add {p : Pipe} {todo : List Pipe} (h : Creating data P i (p :: todo) locals)
    {id id' : PipeId} (hread : P.pipe p.readPipe = some id)
    (hwrite : P.pipe p.writePipe = some id') :
    Creating data P i todo { locals with
      currentPipes := locals.currentPipes ++ [(p.readPipe, id), (p.writePipe, id')] } := by
  obtain ⟨done, hdata, hknows⟩ := h.knows
  refine ⟨h.index, ⟨done ++ [p], by simp [hdata], ?_, ?_⟩, h.spawned⟩
  · intro q k hmem
    rcases List.mem_append.mp hmem with hmem | hmem
    · exact hknows.ids q k hmem
    · simp only [List.mem_cons, Prod.mk.injEq, List.not_mem_nil, or_false] at hmem
      rcases hmem with ⟨rfl, rfl⟩ | ⟨rfl, rfl⟩
      · exact hread
      · exact hwrite
  · have hold : ∀ q, Held data done i q → ∃ k, (q, k) ∈ locals.currentPipes ++
        [(p.readPipe, id), (p.writePipe, id')] := by
      intro q hq
      obtain ⟨k, hk⟩ := hknows.held q hq
      exact ⟨k, List.mem_append_left _ hk⟩
    rintro q (hpassed | ⟨p', hp', hvm', hq⟩)
    · exact hold q (.inl hpassed)
    · rcases List.mem_append.mp hp' with hp' | hp'
      · exact hold q (.inr ⟨p', hp', hvm', hq⟩)
      · rw [List.mem_singleton] at hp'
        subst hp'
        rcases hq with rfl | rfl
        · exact ⟨id, by simp⟩
        · exact ⟨id', by simp⟩

theorem Creating.finish (h : Creating data P i [] locals) :
    Spawning data P i data.spawns locals := by
  obtain ⟨done, hdata, hknows⟩ := h.knows
  rw [List.append_nil] at hdata
  subst hdata
  exact ⟨h.index, hknows, ⟨[], rfl, by rw [h.spawned]; rfl⟩⟩

theorem Spawning.skip {s : Spawn} {todo : List Spawn} (h : Spawning data P i (s :: todo) locals)
    (hvm : s.fromVm ≠ i) : Spawning data P i todo locals := by
  obtain ⟨done, hdata, hspawned⟩ := h.spawned
  refine ⟨h.index, h.knows, ⟨done ++ [s], by simp [hdata], ?_⟩⟩
  rw [childrenOf_other hvm, hspawned]

/-- The id of a child is put behind those of the children before. -/
theorem Spawning.add {s : Spawn} {todo : List Spawn} (h : Spawning data P i (s :: todo) locals)
    (hvm : s.fromVm = i) {id : VmId} (hchild : P.vm s.child = some id) :
    Spawning data P i todo { locals with spawnedVms := locals.spawnedVms ++ [id] } := by
  obtain ⟨done, hdata, hspawned⟩ := h.spawned
  refine ⟨h.index, h.knows, ⟨done ++ [s], by simp [hdata], ?_⟩⟩
  rw [childrenOf_mine hvm, List.map_append, List.map_append, hspawned, List.map_singleton,
    List.map_singleton, hchild]

theorem Spawning.finish (h : Spawning data P i [] locals) : Moving data P i data.writes locals := by
  obtain ⟨done, hdata, hspawned⟩ := h.spawned
  rw [List.append_nil] at hdata
  subst hdata
  exact ⟨h.index, h.knows, hspawned, ⟨[], rfl⟩⟩

theorem Spawning.mem {s : Spawn} {todo : List Spawn} (h : Spawning data P i (s :: todo) locals) :
    s ∈ data.spawns := by
  obtain ⟨done, hdata, -⟩ := h.spawned
  simp [hdata]

theorem Moving.mem {w : Write} {todo : List Write} (h : Moving data P i (w :: todo) locals) :
    w ∈ data.writes := by
  obtain ⟨done, hdata⟩ := h.rest
  simp [hdata]

theorem Moving.next {w : Write} {todo : List Write} (h : Moving data P i (w :: todo) locals) :
    Moving data P i todo locals := by
  obtain ⟨done, hdata⟩ := h.rest
  exact ⟨h.index, h.knows, h.spawned, ⟨done ++ [w], by simp [hdata]⟩⟩

theorem Moving.finish (h : Moving data P i [] locals) :
    Joining P i locals.spawnedVms.reverse (childrenOf i data.spawns).reverse locals :=
  ⟨h.index, by rw [List.map_reverse, h.spawned, List.map_reverse]⟩

section Calls

variable {κ : Type} {env : Env GuestMemory κ} {id : PipeId} {length : UInt64}

/-- A system call with these arguments and buffers reaches the scheduler with this message. -/
def Asks (env : Env GuestMemory κ) (v : VmId) (arguments : List (Reg × UInt64))
    (buffers : List Bytes) (locals : Locals) (msg : Message) : Prop :=
  ∀ (ctx : MachineContext) (c : Core GuestMemory) (m : Cpu GuestMemory), ctx.id = v →
    m.toCore = calling c arguments buffers locals →
      MachineContext.ecall env ctx m = .err .yield m [msg]

theorem asks_pipe (buffers : List Bytes) :
    Asks env v (syscallArguments 2604 [segmentAddr 1]) buffers
    locals (.pipe v { pipe1Addr := segmentAddr 1, pipe2Addr := segmentAddr 1 + 8 }) := by
  rintro ctx c m rfl hm
  have hregisters := congrArg Core.registers hm
  have hcode : m.registers A7 = 2604 := by rw [hregisters]; rfl
  have haddr : m.registers A0 = segmentAddr 1 := by rw [hregisters]; rfl
  rw [ecall_pipe hcode, haddr]

theorem asks_join (buffers : List Bytes) (target : VmId) :
    Asks env v (syscallArguments 2602 [target, segmentAddr 1]) buffers locals
      (.join v { targetId := target, exitCodeAddr := segmentAddr 1 }) := by
  rintro ctx c m rfl hm
  have hregisters := congrArg Core.registers hm
  have hcode : m.registers A7 = 2602 := by rw [hregisters]; rfl
  have htarget : m.registers A0 = target := by rw [hregisters]; rfl
  have haddr : m.registers A1 = segmentAddr 1 := by rw [hregisters]; rfl
  rw [ecall_join hcode, htarget, haddr]

theorem wordsBytes_singleton (word : UInt64) : wordsBytes [word] = wordBytes word :=
  List.append_nil _

theorem load_length {m : Cpu GuestMemory} {c : Core GuestMemory} {arguments : List (Reg × UInt64)}
    {first second : Bytes} (hm : m.toCore =
      calling c arguments [first, second, wordBytes length] locals) :
    Memory.load64 m.memory (segmentAddr 2) = .ok length := by
  have hmemory := congrArg Core.memory hm
  rw [hmemory]
  exact congrArg Except.ok (layout_firstWord (by decide)
    (show [first, second, wordBytes length][2]? = some (wordsBytes [length]) by
      rw [wordsBytes_singleton]
      rfl))

theorem asks_write (first second : Bytes) (hid : id.isWrite = true) :
    Asks env v (syscallArguments 2605 [segmentAddr 1, segmentAddr 2, id])
      [first, second, wordBytes length] locals (.pipeWrite v {
        pipe := id
        length
        bufferAddr := segmentAddr 1
        lengthAddr := segmentAddr 2 }) := by
  rintro ctx c m rfl hm
  have hregisters := congrArg Core.registers hm
  have hcode : m.registers A7 = 2605 := by rw [hregisters]; rfl
  have hbuffer : m.registers A0 = segmentAddr 1 := by rw [hregisters]; rfl
  have haddr : m.registers A1 = segmentAddr 2 := by rw [hregisters]; rfl
  have hpipe : m.registers A2 = id := by rw [hregisters]; rfl
  rw [ecall_pipeWrite hcode (by rw [haddr]; exact load_length hm) (by rw [hpipe]; exact hid),
    hbuffer, haddr, hpipe]

theorem asks_read (first second : Bytes) (hid : id.isRead = true) :
    Asks env v (syscallArguments 2606 [segmentAddr 1, segmentAddr 2, id])
      [first, second, wordBytes length] locals (.pipeRead v {
        pipe := id
        length
        bufferAddr := segmentAddr 1
        lengthAddr := segmentAddr 2 }) := by
  rintro ctx c m rfl hm
  have hregisters := congrArg Core.registers hm
  have hcode : m.registers A7 = 2606 := by rw [hregisters]; rfl
  have hbuffer : m.registers A0 = segmentAddr 1 := by rw [hregisters]; rfl
  have haddr : m.registers A1 = segmentAddr 2 := by rw [hregisters]; rfl
  have hpipe : m.registers A2 = id := by rw [hregisters]; rfl
  rw [ecall_pipeRead hcode (by rw [haddr]; exact load_length hm) (by rw [hpipe]; exact hid),
    hbuffer, haddr, hpipe]

theorem segmentAddr_toNat {k : ℕ} (hk : k < 8) : (segmentAddr k).toNat = k * segmentSize := by
  unfold segmentAddr segmentSize
  rw [UInt64.toNat_ofNat']
  omega

/-- A string without a zero in a buffer of its own. -/
theorem load_string {m : Cpu GuestMemory} {buffers : List Bytes} {k : ℕ} {text : Bytes}
    (hm : m.memory.bytes = layout buffers) (hk : k < 8) (hbuffer : buffers[k]? = some (text ++ [0]))
    (hzero : 0 ∉ text) (hlength : text.length + 1 ≤ segmentSize) :
    (loadCString (2 ^ 64) (segmentAddr k) : MachineM GuestMemory Bytes) m = .ok text m [] := by
  have haddr := segmentAddr_toNat hk
  unfold segmentSize at *
  refine loadCString_run (by omega) (by omega) hzero fun j hj => ?_
  show Except.ok (m.memory.bytes (segmentAddr k + UInt64.ofNat j)) = _
  rw [hm, layout_byte buffers (by omega) (by unfold segmentSize; omega), hbuffer, Option.bind_some]

/-- Words that are not zero in a buffer of their own, with a zero behind them. -/
theorem load_words {m : Cpu GuestMemory} {buffers : List Bytes} {k : ℕ} {words : List UInt64}
    (hm : m.memory.bytes = layout buffers) (hk : k < 8)
    (hbuffer : buffers[k]? = some (wordsBytes (words ++ [0]))) (hzero : 0 ∉ words)
    (hlength : 8 * words.length + 8 ≤ segmentSize) :
    (loadPipes (2 ^ 64) (segmentAddr k) : MachineM GuestMemory (List PipeId)) m =
      .ok words m [] := by
  have haddr := segmentAddr_toNat hk
  have hroom : (segmentAddr k).toNat + 8 * words.length < 2 ^ 64 := by
    unfold segmentSize at *
    omega
  refine loadPipes_run (by omega) hroom hzero fun j hj => ?_
  obtain ⟨word, hword⟩ : ∃ word, (words ++ [0])[j]? = some word :=
    ⟨_, List.getElem?_eq_getElem (by simpa using hj)⟩
  show Except.ok (m.memory.bytes.word (segmentAddr k + UInt64.ofNat (8 * j))) = _
  rw [hm, layout_word (by omega) hbuffer hword (by omega), hword, Option.getD_some]

/-- The two words of a buffer. -/
theorem load_pair {m : Cpu GuestMemory} {buffers : List Bytes} {k : ℕ} {first second : UInt64}
    (hm : m.memory.bytes = layout buffers) (hk : k < 8)
    (hbuffer : buffers[k]? = some (wordsBytes [first, second])) :
    Memory.load64 m.memory (segmentAddr k) = .ok first ∧
      Memory.load64 m.memory (segmentAddr k + 8) = .ok second := by
  constructor
  · show Except.ok (m.memory.bytes.word _) = _
    rw [hm, layout_firstWord (by omega) hbuffer]
  · have hsecond := layout_word (by omega) hbuffer (show [first, second][1]? = some second from rfl)
      (by unfold segmentSize; omega)
    show Except.ok (m.memory.bytes.word (segmentAddr k + UInt64.ofNat (8 * 1))) = _
    rw [hm, hsecond]

/-- The buffers of a spawn, each pointed to by one before. -/
theorem asks_spawn (henv : RunsMain data env) {ids : List PipeId} {text text' : Bytes}
    (hzero : 0 ∉ text) (hzero' : 0 ∉ text') (hids : 0 ∉ ids)
    (hlength : text.length + 1 ≤ segmentSize)
    (hlength' : text'.length + 1 ≤ segmentSize) (hwords : 8 * ids.length + 8 ≤ segmentSize) :
    Asks env v (syscallArguments 2601 [0, 3, 0, 2, segmentAddr 2, segmentAddr 1])
      [[], wordsBytes [segmentAddr 6, segmentAddr 5], wordsBytes [segmentAddr 3, segmentAddr 4],
        text ++ [0], text' ++ [0], wordsBytes (ids ++ [0]), []] locals (.spawn v {
          dataPieceId := .cellDep 0
          offset := 0
          length := 0
          argv := [text, text']
          pipes := ids
          instanceIdAddr := segmentAddr 6 }) := by
  rintro ctx c m rfl hm
  have hregisters := congrArg Core.registers hm
  have hbytes : m.memory.bytes = _ := congrArg (fun core : Core GuestMemory => core.memory.bytes) hm
  have hpointers : m.registers A4 = segmentAddr 2 := by rw [hregisters]; rfl
  have hpair : m.registers A5 = segmentAddr 1 := by rw [hregisters]; rfl
  obtain ⟨code, length, hdata, hpos⟩ := henv.code
  have hroom : (segmentAddr 2).toNat + 16 < 2 ^ 64 := by decide
  have hargs := load_pair hbytes (show 2 < 8 by decide)
    (show _ = some (wordsBytes [segmentAddr 3, segmentAddr 4]) from rfl)
  have hargv := loadArgv_run hroom hargs.1 hargs.2
    (load_string hbytes (show 3 < 8 by decide) rfl hzero hlength)
    (load_string hbytes (show 4 < 8 by decide) rfl hzero' hlength')
  have hstruct := load_pair hbytes (show 1 < 8 by decide)
    (show _ = some (wordsBytes [segmentAddr 6, segmentAddr 5]) from rfl)
  have hpipes := load_words hbytes (show 5 < 8 by decide) rfl hids hwords
  rw [← hpointers] at hargv
  rw [← hpair] at hstruct
  have hne : segmentAddr 5 ≠ 0 := by decide
  exact ecall_spawn (by rw [hregisters]; rfl) (by rw [hregisters]; rfl) (by rw [hregisters]; rfl)
    (by rw [hregisters]; rfl) (by rw [hregisters]; rfl)
      hargv hstruct.1 hstruct.2 hne hpipes hdata hpos

end Calls

theorem isWrite_otherPipe {id : PipeId} (h : id.isRead = true) : id.otherPipe.isWrite = true := by
  simp only [PipeId.isRead, PipeId.isWrite, PipeId.otherPipe, beq_iff_eq] at h ⊢
  rw [← UInt64.toNat_inj] at h ⊢
  simp only [UInt64.toNat_mod, UInt64.toNat_xor] at h ⊢
  have hone : (1 : UInt64).toNat = 1 := rfl
  have htwo : (2 : UInt64).toNat = 2 := rfl
  have hzero : (0 : UInt64).toNat = 0 := rfl
  rw [hone, htwo, Nat.xor_mod_two_eq]
  rw [htwo, hzero] at h
  omega

/-- The ids of the two pipes of a write are the ends of one pipe. -/
theorem Progress.Paired.ofWrite (h : P.Paired data) (hw : Wired n data) {w : Write}
    (hmem : w ∈ data.writes) : (P.pipe w.toPipe = none ∧ P.pipe w.fromPipe = none) ∨
      ∃ id : PipeId, id.isRead = true ∧ P.pipe w.toPipe = some id ∧
        P.pipe w.fromPipe = some id.otherPipe := by
  obtain ⟨p, hp, hread, hwrite⟩ := hw.created w hmem
  have hends := h.ends p hp
  rwa [hread, hwrite] at hends

theorem Progress.Paired.isWrite (h : P.Paired data) (hw : Wired n data) {w : Write}
    (hmem : w ∈ data.writes) {id : PipeId} (hid : P.pipe w.fromPipe = some id) :
    id.isWrite = true := by
  rcases h.ofWrite hw hmem with ⟨-, hnone⟩ | ⟨id', hread, -, hpipe⟩
  · rw [hnone] at hid
    cases hid
  · rw [hpipe, Option.some.injEq] at hid
    rw [← hid]
    exact isWrite_otherPipe hread

theorem Progress.Paired.isRead (h : P.Paired data) (hw : Wired n data) {w : Write}
    (hmem : w ∈ data.writes) {id : PipeId} (hid : P.pipe w.toPipe = some id) :
    id.isRead = true := by
  rcases h.ofWrite hw hmem with ⟨hnone, -⟩ | ⟨id', hread, hpipe, -⟩
  · rw [hnone] at hid
    cases hid
  · rw [hpipe, Option.some.injEq] at hid
    rwa [← hid]

theorem Write.length_getData (w : Write) : w.getData.length = 4 + w.data.length := by
  rw [Write.getData, BytesBuilder.write, List.length_append, Serialization.length_packNumber]

theorem length_le_payload (hw : Wired n data) {w : Write} (hmem : w ∈ data.writes) :
    1 ≤ w.getData.length ∧ w.getData.length < segmentSize := by
  have hpayload := hw.payload w hmem
  have hsize : segmentSize = 2 ^ 40 := rfl
  rw [w.length_getData, hsize]
  omega

theorem toNat_length (hw : Wired n data) {w : Write} (hmem : w ∈ data.writes) :
    (UInt64.ofNat w.getData.length).toNat = w.getData.length := by
  have hpayload := hw.payload w hmem
  rw [UInt64.toNat_ofNat', w.length_getData, Nat.mod_eq_of_lt (by omega)]

/-- A buffer of the second segment. -/
theorem bufferOf_layout {first second : Bytes} {rest : List Bytes}
    (hlt : second.length < segmentSize) :
    bufferOf (layout (first :: second :: rest)) second.length = second := by
  refine List.ext_getElem (by simp [bufferOf]) fun k hk hk' => ?_
  simp only [bufferOf, List.getElem_map, List.getElem_range]
  rw [layout_byte _ (by decide) (hk'.trans hlt)]
  simp [hk']

/-- What a program does next where it stands: it goes on to such a position, exits when it
has nothing left to do, or makes the system call of its first operation. -/
inductive Goes {κ : Type} (env : Env GuestMemory κ) (data : Data) (P : Progress) (i : ℕ) (v : VmId)
    (left : List Op) (locals : Locals) (a0 : UInt64) (bytes : Ram) : Prop
  | goto {locals' : Locals} (h : command data locals a0 bytes = .ok (.goto locals'))
    (hready : Ready data P i left locals' a0 bytes) : Goes env data P i v left locals a0 bytes
  | exit (h : command data locals a0 bytes = .error (.exit 0)) (hleft : left = []) :
    Goes env data P i v left locals a0 bytes
  | call {arguments : List (Reg × UInt64)} {buffers : List Bytes} {locals' : Locals} {msg : Message}
    (h : command data locals a0 bytes = .ok (.call arguments buffers locals'))
    (hposts : Posts data P i v left locals' (layout buffers) msg)
    (hasks : Asks env v arguments buffers locals' msg) : Goes env data P i v left locals a0 bytes

section Goes

variable {κ : Type} {env : Env GuestMemory κ} (henv : RunsMain data env) (hw : Fits n data)
  (hP : P.Paired data)

theorem Creating.goes {todo : List Pipe} (h : Creating data P i todo locals) :
    Goes env data P i v (creates i todo ++ afterPipes i data)
      { locals with stage := .pipes todo } a0
      bytes := by
  cases todo with
  | nil =>
    have hready : Ready data P i (afterPipes i data) { locals with stage := .spawns data.spawns } a0
        bytes := .spawns h.finish
    exact .goto rfl hready
  | cons p todo =>
    by_cases hvm : p.vm = i
    · rw [creates_mine hvm]
      refine .call ?_ (.pipe h hvm) (asks_pipe [])
      simp only [command, h.index, if_pos hvm]
    · rw [creates_other hvm]
      refine .goto ?_ (.pipes (h.skip hvm))
      simp only [command, h.index, if_neg hvm]

include henv hw hP

/-- A parent encodes what its child is to decode. -/
theorem Spawning.goes {todo : List Spawn} (h : Spawning data P i todo locals) :
    Goes env data P i v (spawnsFrom i todo ++ afterSpawns i data)
      { locals with stage := .spawns todo } a0 bytes := by
  cases todo with
  | nil =>
    have hready : Ready data P i (afterSpawns i data)
        { locals with stage := .writes data.writes } a0
        bytes := .writes h.finish
    exact .goto rfl hready
  | cons s todo =>
    by_cases hvm : s.fromVm = i
    · rw [spawnsFrom_mine hvm]
      obtain ⟨ids, hfound, hids⟩ := h.knows.findAll fun q hq => hvm ▸ hw.passes s h.mem q hq
      have hlength : ids.length = s.pipes.length := by
        simpa using congrArg List.length hids
      have hlisted := hw.listed s h.mem
      have hzero : (0 : PipeId) ∉ ids := by
        intro hmem
        have hsome : some (0 : PipeId) ∈ ids.map some := List.mem_map_of_mem hmem
        rw [hids] at hsome
        obtain ⟨q, -, hq⟩ := List.mem_map.mp hsome
        exact absurd (hP.low q 0 hq) (by decide)
      have hindex := encode_length_le (wordBytes (UInt64.ofNat s.child))
      have hwords := encode_length_le (wordsBytes ids)
      rw [length_wordBytes] at hindex
      rw [length_wordsBytes] at hwords
      refine .call ?_ (.spawn h hvm hids) (asks_spawn henv (zero_not_mem_encode _)
        (zero_not_mem_encode _) hzero ?_ ?_ ?_)
      · simp only [command, h.index, if_pos hvm, callSpawn, hfound, encodeArg_eq, ok_bind]
        rfl
      all_goals
        unfold segmentSize
        omega
    · rw [spawnsFrom_other hvm]
      refine .goto ?_ (.spawns (h.skip hvm))
      simp only [command, h.index, if_neg hvm]

omit henv hP

theorem Moving.goes {todo : List Write} (h : Moving data P i todo locals) :
    Goes env data P i v (moves i todo ++ afterWrites i data)
      { locals with stage := .writes todo } a0 bytes := by
  cases todo with
  | nil =>
    have hready : Ready data P i (afterWrites i data)
        { locals with stage := .joins locals.spawnedVms.reverse } a0 bytes := .joins h.finish
    exact .goto rfl hready
  | cons w todo =>
    by_cases hfrom : w.fromVm = i
    · rw [moves_mine (.inl hfrom)]
      obtain ⟨id, hfound, hid⟩ := h.knows.find
        (hfrom ▸ hw.arrives w.fromPipe w.fromVm ⟨w, h.mem, .inl ⟨rfl, rfl⟩⟩)
      refine .goto ?_ (.writing h hfrom hid)
      simp only [command, h.index, if_pos hfrom, hfound]
      rfl
    by_cases hto : w.toVm = i
    · rw [moves_mine (.inr hto)]
      obtain ⟨id, hfound, hid⟩ := h.knows.find
        (hto ▸ hw.arrives w.toPipe w.toVm ⟨w, h.mem, .inr ⟨rfl, rfl⟩⟩)
      refine .goto ?_ (.reading h hto hid)
      simp only [command, h.index, if_neg hfrom, if_pos hto, hfound]
      rfl
    · rw [moves_other hfrom hto]
      refine .goto ?_ (.writes h.next)
      simp only [command, h.index, if_neg hfrom, if_neg hto]

include henv hP

/-- Where the program stands it goes on as the operations left say. -/
theorem Ready.goes (h : Ready data P i left locals a0 bytes) :
    Goes env data P i v left locals a0 bytes := by
  cases h with
  | start h =>
    obtain ⟨locals, hdecode, hcreating⟩ := h.decode hw
    refine .goto ?_ (.pipes hcreating)
    simp only [command, hdecode, Except.map]
  | pipes h => exact h.goes
  | @piped p todo locals bytes h hvm hread hwrite =>
    exact .goto rfl (.pipes (h.add hread hwrite))
  | spawns h => exact h.goes hw henv hP
  | spawned h hvm hchild => exact .goto rfl (.spawns (h.add hvm hchild))
  | writes h => exact h.goes hw
  | @writing w todo locals a0 bytes id h hvm hpipe =>
    obtain ⟨hpos, hlt⟩ := length_le_payload hw.toWired h.mem
    refine .call ?_ (.write h hvm hpipe ?_) 
      (asks_write [] w.getData (hP.isWrite hw.toWired h.mem hpipe))
    · simp only [command, if_pos (show 0 < w.getData.length from hpos), Nat.sub_zero,
        List.drop_zero]
    · exact bufferOf_layout hlt
  | @wrote w todo locals bytes id h hlength =>
    obtain ⟨hpos, -⟩ := length_le_payload hw.toWired h.mem
    have hnat := toNat_length hw.toWired h.mem
    have hne : UInt64.ofNat w.getData.length ≠ 0 := by
      intro hzero
      rw [hzero] at hnat
      exact absurd hnat (by rw [UInt64.toNat_zero]; omega)
    have hready : Ready data P i (moves i todo ++ afterWrites i data)
        { locals with stage := .writing w id w.getData.length todo } 0 bytes := .written h
    refine .goto ?_ hready
    simp only [command, DataGraph.checked, if_true, hlength, if_neg hne, hnat, Nat.zero_add]
  | @written w todo locals a0 bytes id h =>
    refine .goto ?_ (.writes h.next)
    simp only [command, if_neg (Nat.lt_irrefl _)]
  | @reading w todo locals a0 bytes id h hvm hpipe =>
    obtain ⟨hpos, hlt⟩ := length_le_payload hw.toWired h.mem
    refine .call ?_ (.read h hvm hpipe) 
      (asks_read [] (List.replicate w.getData.length 0) (hP.isRead hw.toWired h.mem hpipe))
    simp only [command, if_pos (show 0 < w.getData.length from hpos), Nat.sub_zero]
  | @didRead w todo locals bytes id h hlength hdata =>
    obtain ⟨hpos, -⟩ := length_le_payload hw.toWired h.mem
    have hnat := toNat_length hw.toWired h.mem
    have hsame : ¬ bufferOf bytes w.getData.length ≠ (w.getData.drop 0).take w.getData.length := by
      rw [List.drop_zero, List.take_length]
      exact not_not_intro hdata
    unfold bufferOf at hsame
    have hready : Ready data P i (moves i todo ++ afterWrites i data)
        { locals with stage := .reading w id w.getData.length todo } 0 bytes := .read h
    refine .goto ?_ hready
    simp only [command, DataGraph.checked, if_true, hlength, hnat, Nat.zero_add,
      if_neg (show ¬ w.getData.length = 0 by omega), if_neg hsame]
  | @read w todo locals a0 bytes id h =>
    refine .goto ?_ (.writes h.next)
    simp only [command, if_neg (Nat.lt_irrefl _)]
  | @joins targets children locals a0 bytes h =>
    cases targets with
    | nil =>
      cases children with
      | nil => exact .exit rfl rfl
      | cons child children => simpa using h.targets
    | cons target targets =>
      cases children with
      | nil => simpa using h.targets
      | cons child children =>
        have hposts : Posts data P i v (.join child :: DataGraph.joins children)
            { locals with stage := .joined targets } (layout [[], [0xFF]])
            (.join v { targetId := target, exitCodeAddr := segmentAddr 1 }) := .join h
        exact .call rfl hposts (asks_join _ target)
  | joined h hcode =>
    refine .goto ?_ (.joins h)
    simp only [command, DataGraph.checked, if_true, hcode]

/-- A machine whose program stands so. -/
def AtReady (data : Data) (P : Progress) (i : ℕ) (left : List Op) (c : Core GuestMemory) : Prop :=
  Ready data P i left c.memory.locals (c.registers A0) c.memory.bytes

omit henv hw hP in
theorem applyEffect_step {μ : Type} (c : Core μ) (charge : ℕ) (m : Cpu μ) :
    (applyEffect (.step c charge) m).Meets (fun r m' _ => r = none ∧ m'.toCore = c)
      (fun e _ _ => e = .cyclesOverflow) True := by
  simp only [applyEffect, modify_bind_run]
  by_cases hlt : m.cycles + charge < 2 ^ 64
  · rw [bind_run, addCyclesNoChecking]
    simp only [get_bind_run, if_pos hlt, set_run]
    exact ⟨rfl, rfl⟩
  · rw [bind_run, addCyclesNoChecking]
    simp only [get_bind_run, if_neg hlt, throw_run]
    rfl

/-- An instruction of the program leads to such a position again, ends it with code zero, or
makes the call of its first operation. -/
theorem AtReady.steps {ctx : MachineContext} {m : Cpu GuestMemory} (hv : ctx.id = v)
    (h : AtReady data P i left m.toCore) : (stepMachine env ctx m).Meets
      (fun r m' _ => (r = none → AtReady data P i left m'.toCore) ∧
        ∀ code, r = some code → code = 0 ∧ left = [])
      (fun e m' l => ¬ e.Interrupt ∧ (e = .cyclesOverflow ∨ e = .yield ∧ ∃ msg, l = [msg] ∧
        Posts data P i v left m'.memory.locals m'.memory.bytes msg)) True := by
  simp only [stepMachine, get_bind_run, set_bind_run, henv.next, mainNext]
  cases h.goes (v := v) hw henv hP with
  | goto hcommand hready =>
    simp only [hcommand]
    refine (applyEffect_step _ _ _).mono ?_ ?_ id
    · rintro r m' _ ⟨rfl, hcore⟩
      refine ⟨fun _ => ?_, fun code hcode => by cases hcode⟩
      rw [hcore]
      exact hready
    · rintro e m' _ rfl
      exact ⟨by decide, .inl rfl⟩
  | exit hcommand hleft =>
    simp only [hcommand, applyEffect, modify_bind_run, pure_run]
    refine ⟨fun hnone => ?_, fun code hcode => ⟨(Option.some.inj hcode).symm, hleft⟩⟩
    cases hnone
  | call hcommand hposts hasks =>
    simp only [hcommand, modify_bind_run]
    rw [bind_of_err (hasks ctx _ _ hv rfl)]
    exact ⟨by decide, .inr ⟨rfl, _, rfl, hposts⟩⟩

/-- Wherever an execution is interrupted, its VM has the same operations left. It yields with the
message of the first of them, and exits with code zero when there is none. Only the count of
its cycles can fail. -/
theorem AtReady.runs {m : Cpu GuestMemory} (h : AtReady data P i left m.toCore) (base limit : ℕ)
    (pause : Pause) : (runMachine env ⟨v, base⟩ limit pause m).Meets
      (fun code _ _ => code = 0 ∧ left = [])
      (fun e m' l => (e.Interrupt → AtReady data P i left m'.toCore) ∧
        (¬ e.Interrupt → e = .cyclesOverflow ∨ e = .yield ∧ ∃ msg, l = [msg] ∧
          Posts data P i v left m'.memory.locals m'.memory.bytes msg)) True := by
  let ended := fun (code : Int8) (_ : Core GuestMemory) => code = 0 ∧ left = []
  let failed := fun (e : Error) (c : Core GuestMemory) (l : List Message) =>
    e = .cyclesOverflow ∨ e = .yield ∧ ∃ msg, l = [msg] ∧
      Posts data P i v left c.memory.locals c.memory.bytes msg
  have hruns : (runMachine env ⟨v, base⟩ limit pause m).Meets
      (fun code m' _ => ended code m'.toCore)
      (fun e m' l => (e.Interrupt → AtReady data P i left m'.toCore) ∧
        (¬ e.Interrupt → failed e m'.toCore l)) True :=
    runMachine_keeps (fun m hm => AtReady.steps hw henv hP rfl hm) pause m h
  exact hruns

end Goes

end DeterministicScheduler.DataGraph
