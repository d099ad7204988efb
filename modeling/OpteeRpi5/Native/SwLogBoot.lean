import OpteeRpi5.Native.SwLogRegion

/-!
# The boot hooks of the secure-world log

The log region is ordinary memory, so Linux has to be told to keep out of it.
`update_external_dt` of `kernel/boot.c` calls `plat_dt_add_reserved_mem`, which adds a
reserved-memory node to the external device tree; `plat_trace_init` sets the physical
address; the service initcall `rpi5_sw_log_init` maps and enables the log. Messages are
traced before, between and after these hooks, the messages of the hooks among them.

Left out: what the other nodes of the device tree hold, and the initcalls that have
nothing to do with the log. `do_init_calls` only reports an initcall that fails.
-/

namespace OpteeRpi5.Native

/-! ## The device tree -/

/-- A child of `/reserved-memory`: the name and the unit address of the node, and its
    properties `reg` and `no-map`. -/
structure ResMemNode where
  name : String
  unit : Nat
  reg : Option (Nat × Nat)
  noMap : Bool
  deriving DecidableEq

/-- The reserved memory of a device tree. -/
structure DeviceTree where
  reserved : List ResMemNode
  deriving DecidableEq

/-- Where libfdt runs out of space in `add_res_mem_dt_node`: in `/reserved-memory` itself,
    at the node, at `reg` or at `no-map`. -/
inductive FdtFault where
  | parent
  | subnode
  | reg
  | noMap
  deriving DecidableEq

/-- `-FDT_ERR_EXISTS`. -/
def fdtErrExists : Int := -2

/-- `-FDT_ERR_NOSPACE`. -/
def fdtErrNoSpace : Int := -3

/-- `add_res_mem_dt_node`: the result and the device tree, which keeps what was done
    before an error. -/
def addResMemDtNode (fault : Option FdtFault) (dt : DeviceTree) (name : String)
    (pa size : Nat) : Int × DeviceTree :=
  let with' (reg : Option (Nat × Nat)) (noMap : Bool) : DeviceTree :=
    ⟨dt.reserved ++ [⟨name, pa, reg, noMap⟩]⟩
  if fault = some .parent then (fdtErrNoSpace, dt)
  -- `fdt_add_subnode`
  else if dt.reserved.any (fun n => n.name = name ∧ n.unit = pa) then (fdtErrExists, dt)
  else if fault = some .subnode then (fdtErrNoSpace, dt)
  -- `fdt_setprop`, twice
  else if fault = some .reg then (fdtErrNoSpace, with' none false)
  else if fault = some .noMap then (fdtErrNoSpace, with' (some (pa, size)) false)
  else (0, with' (some (pa, size)) true)

/-- `plat_dt_add_reserved_mem`: a failure is traced, and forgotten. -/
def platDtAddReservedMem (fault : Option FdtFault) (dt : DeviceTree) : Int × DeviceTree :=
  let r := addResMemDtNode fault dt "optee_sw_log" rpi5SwLogPaddr rpi5SwLogSize.toNat
  (0, r.2)

/-- What a boot finds: the external device tree, what `update_external_dt` makes of it
    before the platform hook (`none` if it panics), where libfdt fails in the hook, the
    answer of `phys_to_virt`, and how messages are printed. -/
structure BootEnv where
  externalDt : Option DeviceTree
  coreNodes : DeviceTree → Option DeviceTree
  fault : Option FdtFault
  va : Nat
  trace : TraceEnv

/-- `update_external_dt`; `none` is a panic. -/
def updateExternalDt (env : BootEnv) (dt : Option DeviceTree) : Option (Option DeviceTree) :=
  match dt with
  | none => some none
  | some dt =>
    match env.coreNodes dt with
    | none => none
    | some dt =>
      let r := platDtAddReservedMem env.fault dt
      if r.1 ≠ 0 then none else some (some r.2)

/-! ## Boot runs -/

/-- How far the boot is: before and after `update_external_dt`, after `rpi5_sw_log_init`,
    or stopped. -/
inductive BootPhase where
  | early
  | late
  | runtime
  | panicked
  deriving DecidableEq

/-- The boot: the phase, the device tree and the log. -/
structure BootState where
  phase : BootPhase
  dt : Option DeviceTree
  log : LogRegion

/-- What can happen next: one of the hooks, or a step of the log. -/
inductive BootAct where
  | platTraceInit
  | updateExternalDt
  | swLogInit
  | log (a : RegionAct)

/-- A step of the boot. The hooks run in the order of the phases, each once. -/
def BootState.step (env : BootEnv) (s : BootState) : BootAct → Option BootState
  | .platTraceInit =>
    if s.phase = .early then
      some { s with log := { s.log with statics := { s.log.statics with pa := rpi5SwLogPaddr } } }
    else none
  | .updateExternalDt =>
    if s.phase = .early then
      match Native.updateExternalDt env s.dt with
      | none => some { s with phase := .panicked }
      | some dt => some { s with phase := .late, dt := dt }
    else none
  | .swLogInit =>
    if s.phase = .late ∧ s.log.rest = [] then
      some { s with phase := .runtime, log := s.log.swLogInit env.trace env.va }
    else none
  | .log a => (s.log.step a).map fun log => { s with log := log }

/-- The start of a boot, with whatever is in the log region. -/
def BootState.start (env : BootEnv) (mem : Buf) : BootState where
  phase := .early
  dt := env.externalDt
  log := ⟨SwLogStatics.zero, mem, [], ⟨.idle, 0, 0, 0⟩, []⟩

end OpteeRpi5.Native
