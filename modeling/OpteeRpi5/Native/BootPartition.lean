import OpteeRpi5.ForStd.FileScript
import OpteeRpi5.Native.BootConfig
import OpteeRpi5.Native.BootImage

/-!
# The boot partition

The scripts that write to `/boot/firmware` on the board: the remote part of
`deploy-rpi5-optee.sh`, `remote-install-optee-oneshot.sh`, `recover-boot-wifi.sh` and the
remote part of `install-rpi5-optee-kernel.sh`. Each is the list of its commands on the
files of the partition and on the backups it makes of them, and can be killed.

A file is its bytes. The commands that write elsewhere are left out: the network backup,
trusted applications, client libraries, kernel modules and services. A script that stops
in one of them has left the partition as after the command before it. So are `mkdir` and
the temporary file of `sed -i`.
-/

namespace OpteeRpi5.Native

open LineEdit FileScript

/-- `$(date +%Y%m%d-%H%M%S)`. -/
abbrev Stamp := String

/-- The files of `/boot/firmware` that the scripts read or write, and their backups. -/
inductive BootFile where
  /-- `config.txt`. -/
  | config
  /-- `cmdline.txt`. -/
  | cmdline
  /-- `armstub8-2712.bin`. -/
  | stockStub
  /-- `armstub8-2712-optee.bin`. -/
  | opteeStub
  /-- `kernel_2712.img`. -/
  | kernel
  /-- `optee/tee*.bin`. -/
  | tee (name : String)
  /-- The files in `/boot/firmware.file-backups`. -/
  | configBackup (stamp : Stamp)
  | cmdlineBackup (stamp : Stamp)
  | stockStubBackup (stamp : Stamp)
  | opteeStubBackup (stamp : Stamp)
  /-- `config.txt.recover-${STAMP}`. -/
  | configRecover (stamp : Stamp)
  /-- `armstub8-2712-optee.bin.disabled-${STAMP}`. -/
  | opteeStubDisabled (stamp : Stamp)
  /-- `kernel_2712.img.bak-${STAMP}`. -/
  | kernelBak (stamp : Stamp)
  deriving DecidableEq

/-- The files on a board. -/
abbrev BootFiles := Files BootFile (List Char)

/-- A command of the scripts. -/
abbrev BootCmd := Cmd BootFile (List Char)

/-! ## Edits of the bytes of `config.txt` -/

namespace ConfigTxt

variable (L : LcCtype)

/-- `removeDtoverlay`, on the bytes of the file. -/
def removeDtoverlayText (t : List Char) : List Char :=
  if grepText (L.marked dtoverlay) t then sedText (L.marked dtoverlay) (disableOverlay L) t else t

/-- `s/^[[:space:]]*word/# &/`, on the bytes of the file. -/
def commentOutText (word : Line) (t : List Char) : List Char :=
  sedText (L.bare word) ("# ".toList ++ ·) t

/-- `recover`, on the bytes of the file. -/
def recoverText (t : List Char) : List Char :=
  commentOutText L dtoverlay (commentOutText L armstub.line t)

/-- `verifyInstall`, on the bytes of the file. -/
def verifyInstallText (t : List Char) : Bool :=
  !(cmdSubst (L.grepLines armstub.word.isPrefixOf t) != armstub.line ||
    cmdSubst (L.grepLines kernelAddress.word.isPrefixOf t) != kernelAddress.line)

end ConfigTxt

/-! ## Installing OP-TEE -/

/-- `~/optee-rpi5` on the board. -/
structure DropDir where
  /-- `armstub8-2712-optee.bin`. -/
  armstub : Option (List Char)
  /-- The names that `tee*.bin` expands to, with what the copies leave. -/
  tees : List (String × Option (List Char))
  /-- `rootfs-overlay` has a directory of network settings, or `boot`. -/
  badOverlay : Bool

/-- Backing up the files that an install is about to change, and two that it is not. -/
def backupBoot (stamp : Stamp) : List BootCmd :=
  [.copy .config (.configBackup stamp),
    .copyIf .cmdline (.cmdlineBackup stamp),
    .copyIf .stockStub (.stockStubBackup stamp),
    .copyIf .opteeStub (.opteeStubBackup stamp)]

/-- The edits of `config.txt`, and the verification. -/
def configureBoot (L : LcCtype) : List BootCmd :=
  .touch .config [] ::
    (ConfigTxt.installSettings.map fun s => .edit .config (ConfigTxt.setConfigText L · s)) ++
    [.edit .config (ConfigTxt.removeDtoverlayText L),
      .verify .config (ConfigTxt.verifyInstallText L)]

/-- The part that both installers have in common. -/
def installBoot (L : LcCtype) (stamp : Stamp) (drop : DropDir) (stub : List Char) :
    List BootCmd :=
  backupBoot stamp ++
    .store .opteeStub stub :: drop.tees.map (fun t => .tryStore (.tee t.1) t.2) ++
    configureBoot L

/-- `remote-install-optee-oneshot.sh`. -/
def remoteInstallOneshot (L : LcCtype) (stamp : Stamp) (drop : DropDir) : List BootCmd :=
  match drop.armstub with
  | none => [.check false]
  | some stub => .check (stub.length = expectedArmstubSize) :: installBoot L stamp drop stub

/-- The remote part of `deploy-rpi5-optee.sh`. -/
def deployRemote (L : LcCtype) (stamp : Stamp) (drop : DropDir) : List BootCmd :=
  match drop.armstub with
  | none => [.check false]
  | some stub =>
    .check (stub.length = expectedArmstubSize) :: .check (!drop.badOverlay) ::
      installBoot L stamp drop stub

/-! ## Recovery and the kernel -/

/-- `recover-boot-wifi.sh`. -/
def recoverBootWifi (L : LcCtype) (stamp : Stamp) : List BootCmd :=
  [.copy .config (.configRecover stamp),
    .edit .config (ConfigTxt.recoverText L),
    .moveIf .opteeStub (.opteeStubDisabled stamp)]

/-- The remote part of `install-rpi5-optee-kernel.sh`, with the image that has been copied
    to the board. -/
def installKernel (stamp : Stamp) (image : Option (List Char)) : List BootCmd :=
  match image with
  | none => [.check false]
  | some image => [.copy .kernel (.kernelBak stamp), .store .kernel image]

/-- The scripts, with what they find on the board. -/
inductive BootJob where
  | deploy (drop : DropDir)
  | oneshot (drop : DropDir)
  | recover
  | kernel (image : Option (List Char))

/-- A script that is run at a given time, in a locale. -/
structure BootRun where
  job : BootJob
  stamp : Stamp
  locale : LcCtype

/-- The commands of a run. -/
def BootRun.script (r : BootRun) : List BootCmd :=
  match r.job with
  | .deploy drop => deployRemote r.locale r.stamp drop
  | .oneshot drop => remoteInstallOneshot r.locale r.stamp drop
  | .recover => recoverBootWifi r.locale r.stamp
  | .kernel image => installKernel r.stamp image

end OpteeRpi5.Native
