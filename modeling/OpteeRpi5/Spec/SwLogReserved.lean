import OpteeRpi5.ForStd.Run
import OpteeRpi5.Native.SwLogBoot

/-!
# The log region is reserved before it is written

Reserving the log region, mapping it and enabling the log are three separate hooks. The
reservation may fail without consequences, so that a full device tree does not stop the
boot: `update_external_dt` returns early without a device tree, and
`plat_dt_add_reserved_mem` reports success whatever happened. The log is then enabled all
the same.

## Key results

- `hasLogNode_platDtAddReservedMem`: when the hook leaves the node in the device tree
- `BootInv`: before the log is enabled nothing is stored
- `logReserved_iff`: the boots whose stores are all to reserved memory
-/

namespace OpteeRpi5.Spec

open OpteeRpi5.Native

/-! ## Reservation -/

/-- The node that keeps Linux out of the log region. -/
def isLogNode (n : ResMemNode) : Bool :=
  n.name = "optee_sw_log" && n.reg = some (rpi5SwLogPaddr, rpi5SwLogSize.toNat)

/-- The device tree for the normal world contains the node. -/
def hasLogNode : Option DeviceTree → Bool
  | none => false
  | some dt => dt.reserved.any isLogNode

/-- A node of the name and unit address is there already. -/
def logNameTaken (dt : DeviceTree) : Bool :=
  dt.reserved.any fun n => n.name = "optee_sw_log" ∧ n.unit = rpi5SwLogPaddr

/-- The platform hook leaves the node in the device tree if it was there before, or if its
    name was free and libfdt did not fail before `reg` was set. -/
theorem hasLogNode_platDtAddReservedMem (fault : Option FdtFault) (dt : DeviceTree) :
    hasLogNode (some (platDtAddReservedMem fault dt).2) = true ↔
      hasLogNode (some dt) = true ∨
      (logNameTaken dt = false ∧ (fault = none ∨ fault = some .noMap)) := by
  have htaken : (dt.reserved.any fun n => n.name = "optee_sw_log" ∧ n.unit = rpi5SwLogPaddr) =
      logNameTaken dt := rfl
  unfold platDtAddReservedMem addResMemDtNode
  simp only [htaken]
  cases logNameTaken dt with
  | true =>
    -- `fdt_add_subnode` fails at the latest
    by_cases hparent : fault = some .parent <;> simp [hparent]
  | false =>
    -- the added node is the one that is looked for once its `reg` is set
    cases fault with
    | none => simp [hasLogNode, isLogNode]
    | some fault => cases fault <;> simp [hasLogNode, isLogNode]

/-- A store to a byte of the log region, with `pa` the physical address of the log. -/
def TouchesLog (pa : Nat) (st : RegionStore) : Prop :=
  pa + st.off < rpi5SwLogPaddr + rpi5SwLogSize.toNat ∧ rpi5SwLogPaddr < pa + st.off + st.width

/-- If the secure world has stored to the log region, the region is reserved. -/
def LogReserved (s : BootState) : Prop :=
  (∃ st ∈ s.log.stores, TouchesLog s.log.statics.pa st) → hasLogNode s.dt = true

/-- What a boot has to find: `phys_to_virt` fails, or there is an external device tree
    which, when the platform hook gets it, has the node already, or has its name free and
    room for it up to `reg`. -/
def BootEnv.Reserves (env : BootEnv) : Prop :=
  env.va = 0 ∨ ∃ dt, env.externalDt = some dt ∧ ∀ dt', env.coreNodes dt = some dt' →
    hasLogNode (some dt') = true ∨
    (logNameTaken dt' = false ∧ (env.fault = none ∨ env.fault = some .noMap))

/-- The tree that `update_external_dt` leaves, by the one that the hook gets. -/
theorem hasLogNode_updateExternalDt (env : BootEnv) :
    (∀ dt, updateExternalDt env env.externalDt = some dt → hasLogNode dt = true) ↔
      ∃ dt, env.externalDt = some dt ∧ ∀ dt', env.coreNodes dt = some dt' →
        hasLogNode (some dt') = true ∨
        (logNameTaken dt' = false ∧ (env.fault = none ∨ env.fault = some .noMap)) := by
  cases hdt : env.externalDt with
  | none => simp [updateExternalDt, hasLogNode]
  | some dt =>
    cases hcore : env.coreNodes dt with
    | none => simp [updateExternalDt, hcore]
    | some dt' =>
      -- the hook always reports success
      have hupdate : updateExternalDt env (some dt) =
          some (some (platDtAddReservedMem env.fault dt').2) := by
        simp [updateExternalDt, hcore, platDtAddReservedMem]
      simp only [hupdate, Option.some.injEq, forall_eq', exists_eq_left', hcore]
      exact hasLogNode_platDtAddReservedMem env.fault dt'

/-! ## Boot runs -/

/-- The log before it is enabled: no put is in progress and nothing has been stored. -/
structure LogQuiet (log : LogRegion) : Prop where
  size : log.statics.size = 0
  idle : log.writer.pc = .idle
  stores : log.stores = []

/-- What is traced before the log is enabled is dropped. -/
private theorem LogQuiet.step {log log' : LogRegion} {a : RegionAct} (h : LogQuiet log)
    (hstep : log.step a = some log') : LogQuiet log' := by
  cases a with
  | puts str =>
    simp only [LogRegion.step] at hstep
    split at hstep
    · cases hstep
      exact ⟨h.size, h.idle, h.stores⟩
    · exact nomatch hstep
  | secure =>
    -- `sw_log_puts` returns at its first test
    have hdisabled : log.statics.disabled = true := by
      simp [SwLogStatics.disabled, h.size]
    simp only [LogRegion.step, LogRegion.secureStep, h.idle, if_true, hdisabled] at hstep
    split at hstep
    · exact nomatch hstep
    · split at hstep
      · cases hstep
        exact ⟨h.size, h.idle, h.stores⟩
      · cases hstep
        exact ⟨h.size, h.idle, h.stores⟩
  | normal off v =>
    simp only [LogRegion.step] at hstep
    split at hstep
    · cases hstep
      exact ⟨h.size, h.idle, h.stores⟩
    · exact nomatch hstep

/-- Before the log is enabled nothing is stored, and from `update_external_dt` on the
    device tree is the one it left. -/
structure BootInv (env : BootEnv) (s : BootState) : Prop where
  quiet : LogQuiet s.log ∨ (s.phase = .runtime ∧ env.va ≠ 0)
  early : s.phase = .early → s.dt = env.externalDt
  updated : s.phase = .late ∨ s.phase = .runtime →
    updateExternalDt env env.externalDt = some s.dt

/-- At the start the log is not enabled and the device tree is the external one. -/
private theorem BootInv.start (env : BootEnv) (mem : Buf) :
    BootInv env (BootState.start env mem) where
  quiet := .inl ⟨rfl, rfl, rfl⟩
  early := fun _ => rfl
  updated := fun h => absurd (show BootPhase.early = .late ∨ BootPhase.early = .runtime from h)
    (by decide)

/-- `rpi5_sw_log_init` enables nothing when `phys_to_virt` fails. -/
private theorem LogQuiet.swLogInit {log : LogRegion} (h : LogQuiet log) (env : TraceEnv) :
    LogQuiet (log.swLogInit env 0) := by
  refine ⟨h.size, h.idle, ?_⟩
  simp only [LogRegion.swLogInit, rpi5SwLogInit, if_true, h.stores, List.append_nil]

/-- Only `rpi5_sw_log_init` ends the quiet. -/
private theorem BootInv.quiet_of_ne {env : BootEnv} {s : BootState} (h : BootInv env s)
    (hphase : s.phase ≠ .runtime) : LogQuiet s.log :=
  h.quiet.resolve_right fun hrun => hphase hrun.1

/-- Every step keeps the invariant. -/
theorem BootInv.step {env : BootEnv} {s s' : BootState} {a : BootAct} (h : BootInv env s)
    (hstep : s.step env a = some s') : BootInv env s' := by
  cases a with
  | platTraceInit =>
    simp only [BootState.step] at hstep
    split at hstep
    · next hearly =>
      cases hstep
      have hquiet : LogQuiet s.log := h.quiet_of_ne (by rw [hearly]; decide)
      exact ⟨.inl ⟨hquiet.size, hquiet.idle, hquiet.stores⟩, h.early, h.updated⟩
    · exact nomatch hstep
  | updateExternalDt =>
    simp only [BootState.step] at hstep
    split at hstep
    · next hearly =>
      have hquiet : LogQuiet s.log := h.quiet_of_ne (by rw [hearly]; decide)
      rw [h.early hearly] at hstep
      split at hstep
      · -- a panic: no hook runs any more
        cases hstep
        refine ⟨.inl hquiet, fun hpc => (by cases hpc), fun hpc => ?_⟩
        rcases hpc with hpc | hpc <;> cases hpc
      · next dt hdt =>
        cases hstep
        exact ⟨.inl hquiet, fun hpc => (by cases hpc), fun _ => hdt⟩
    · exact nomatch hstep
  | swLogInit =>
    simp only [BootState.step] at hstep
    split at hstep
    · next hlate =>
      cases hstep
      have hquiet : LogQuiet s.log := h.quiet_of_ne (by rw [hlate.1]; decide)
      refine ⟨?_, fun hpc => (by cases hpc), fun _ => h.updated (.inl hlate.1)⟩
      -- the initialisation fails without a virtual address
      by_cases hva : env.va = 0
      · left
        rw [hva]
        exact hquiet.swLogInit env.trace
      · exact .inr ⟨rfl, hva⟩
    · exact nomatch hstep
  | log a =>
    simp only [BootState.step, Option.map_eq_some_iff] at hstep
    obtain ⟨log, hlog, rfl⟩ := hstep
    refine ⟨?_, h.early, h.updated⟩
    rcases h.quiet with hquiet | hrun
    · exact .inl (hquiet.step hlog)
    · exact .inr hrun

/-- A boot without the node whose `phys_to_virt` succeeds stores to the region as soon as
    `rpi5_sw_log_init` finds no magic word. -/
private theorem exists_unreserved_store {env : BootEnv} {dt : Option DeviceTree}
    (hva : env.va ≠ 0) (hdt : updateExternalDt env env.externalDt = some dt) :
    ∃ t, Run.exec (BootState.step env) (BootState.start env (fun _ => 0))
        [.updateExternalDt, .swLogInit] = some t ∧
      (∃ st ∈ t.log.stores, TouchesLog t.log.statics.pa st) ∧ t.dt = dt := by
  have hmagic : Buf.le32 (fun _ => 0) hdrMagic ≠ rpi5SwLogMagic := by decide
  refine ⟨{ phase := .runtime, dt := dt,
            log := LogRegion.swLogInit env.trace env.va
              (BootState.start env (fun _ => 0)).log }, ?_, ?_, rfl⟩
  · simp [Run.exec, BootState.step, BootState.start, hdt]
  · refine ⟨.write32 hdrMagic rpi5SwLogMagic, ?_, ?_⟩
    · simp [LogRegion.swLogInit, BootState.start, rpi5SwLogInit, hva, hmagic]
    · simp only [LogRegion.swLogInit, rpi5SwLogInit, if_neg hva]
      unfold TouchesLog
      decide

/-- In every run of a boot the stores to the log region are to reserved memory, if and only
    if the hook gets a device tree that has the node or can take it, or `phys_to_virt`
    fails. -/
theorem logReserved_iff (env : BootEnv) :
    (∀ mem acts t, Run.exec (BootState.step env) (BootState.start env mem) acts = some t →
      LogReserved t) ↔ BootEnv.Reserves env := by
  rw [BootEnv.Reserves, ← hasLogNode_updateExternalDt]
  constructor
  · intro h
    by_cases hva : env.va = 0
    · exact .inl hva
    · right
      intro dt hdt
      -- zeroed memory has no magic word, so the header is stored at once
      obtain ⟨t, hrun, hstore, ht⟩ := exists_unreserved_store hva hdt
      rw [← ht]
      exact h _ _ t hrun hstore
  · intro h mem acts t hrun hstore
    have hinv : BootInv env t :=
      Run.exec_inv (BootInv env) (fun _ _ _ hs hstep => hs.step hstep) (BootInv.start env mem) hrun
    obtain ⟨st, hst, -⟩ := hstore
    rcases hinv.quiet with hquiet | ⟨hphase, hva⟩
    · rw [hquiet.stores] at hst
      exact nomatch hst
    · -- the log is enabled after `update_external_dt`
      exact h.resolve_left hva t.dt (hinv.updated (.inr hphase))

/-- A boot whose device tree is full: the node cannot be added. -/
def fullDtb : BootEnv where
  externalDt := some ⟨[]⟩
  coreNodes := some
  fault := some .subnode
  va := 0x10000000
  trace := ⟨traceInfo, fun _ => textBytes "I/TC: "⟩

/-- The reservation fails, the boot goes on, and `rpi5_sw_log_init` stores the header to
    memory that Linux takes for its own. -/
theorem fullDtb_unreserved : ∃ t,
    Run.exec (BootState.step fullDtb) (BootState.start fullDtb (fun _ => 0))
      [.updateExternalDt, .swLogInit] = some t ∧
    t.log.statics.pa = rpi5SwLogPaddr ∧
    t.log.stores = [.write32 0 rpi5SwLogMagic, .write32 4 0, .write32 8 0, .write32 12 0] ∧
    t.dt = some ⟨[]⟩ ∧ ¬ LogReserved t := by
  have hrun : ∃ t, Run.exec (BootState.step fullDtb) (BootState.start fullDtb (fun _ => 0))
      [.updateExternalDt, .swLogInit] = some t ∧
      t.log.statics.pa = rpi5SwLogPaddr ∧
      t.log.stores = [.write32 0 rpi5SwLogMagic, .write32 4 0, .write32 8 0, .write32 12 0] ∧
      t.dt = some ⟨[]⟩ := ⟨_, rfl, rfl, by decide, rfl⟩
  obtain ⟨t, hexec, hpa, hstores, hdt⟩ := hrun
  refine ⟨t, hexec, hpa, hstores, hdt, ?_⟩
  -- the store of the magic is in the area of the log, and the tree has no node for it
  intro hreserved
  have hnode := hreserved ⟨.write32 0 rpi5SwLogMagic, by simp [hstores], by
    rw [hpa]
    unfold TouchesLog
    decide⟩
  rw [hdt] at hnode
  exact absurd hnode (by decide)

end OpteeRpi5.Spec
