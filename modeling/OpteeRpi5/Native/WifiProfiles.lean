import Mathlib.Data.List.Infix
import OpteeRpi5.ForStd.Fields
import OpteeRpi5.ForStd.LineText

/-!
# Autoconnect of the WiFi profiles

How `ensure-wifi-autoconnect.sh`, and the fallback in `deploy-rpi5-optee.sh`, find the
WiFi profiles in the output of `nmcli -t -f NAME,TYPE connection show`, and which profile
the first one brings up. `nmcli` prints one line for each connection, with a backslash
before every colon and backslash of the name. The radio, the flags that are set and the
dispatcher hook are left out; names are C strings, without null characters.
-/

namespace OpteeRpi5.Native

open LineEdit

/-- `802-11-wireless`. -/
def wirelessType : Line :=
  "802-11-wireless".toList

/-- A connection of NetworkManager. -/
structure Connection where
  name : Line
  type : Line
  name_ne_nil : name ≠ []
  name_newlineFree : '\n' ∉ name
  type_ne_nil : type ≠ []
  type_newlineFree : '\n' ∉ type
  type_colonFree : ':' ∉ type

/-- The characters that `nmcli -t` escapes. -/
def nmcliSpecial (c : Char) : Bool :=
  c = ':' || c = '\\'

/-- `NAME:TYPE`. -/
def Connection.line (c : Connection) : Line :=
  Fields.escape '\\' nmcliSpecial c.name ++ ':' :: c.type

/-- The output of `nmcli -t -f NAME,TYPE connection show`. -/
def nmcliShow (cs : List Connection) : List Char :=
  unlines (cs.map Connection.line)

/-! ## `ensure-wifi-autoconnect.sh` -/

/-- `$2=="802-11-wireless"{print $1}`, with `-F:`. -/
def awkName (l : Line) : Option Line :=
  if Fields.first ':' (Fields.rest ':' l) = wirelessType then some (Fields.first ':' l) else none

/-- `WIFI_NAMES`: `mapfile -t` takes the lines that `awk` prints. -/
def wifiNames (output : List Char) : List Line :=
  textLines (unlines ((textLines output).filterMap awkName))

/-- The patterns `*ForkCoder*` and `netplan-wlan0*`. -/
def preferredPattern (name : Line) : Bool :=
  decide ("ForkCoder".toList <:+: name) || "netplan-wlan0".toList.isPrefixOf name

/-- `UP_CANDIDATE` after one turn of the loop. -/
def candidateStep (preferred up name : Line) : Line :=
  if preferred ≠ [] ∧ name = preferred then name
  else if up = [] then
    if preferredPattern name then name else up
  else up

/-- `UP_CANDIDATE`. -/
def upCandidate (preferred : Line) (names : List Line) : Line :=
  let up := names.foldl (candidateStep preferred) []
  if up = [] then names.headD [] else up

/-- The profiles that are modified, and the one that is brought up. -/
structure WifiRun where
  modified : List Line
  up : Option Line

/-- The script, with `WIFI_CONN_NAME` and the name of the WiFi device. -/
def ensureWifi (output : List Char) (preferred wlanDev : Line) : WifiRun :=
  let names := wifiNames output
  if names = [] then ⟨[], none⟩
  else
    let up := upCandidate preferred names
    ⟨names, if wlanDev ≠ [] ∧ up ≠ [] then some up else none⟩

/-! ## The fallback of `deploy-rpi5-optee.sh` -/

/-- What `read` leaves for its last variable: a single word loses its separator, anything
    longer is taken as it is. -/
def readLast (l : Line) : Line :=
  if Fields.rest ':' l = [] then Fields.first ':' l else l

/-- A turn of `while IFS=: read -r _name _type`. -/
def readName (l : Line) : Option Line :=
  if readLast (Fields.rest ':' l) = wirelessType then some (Fields.first ':' l) else none

/-- The profiles that the loop modifies. -/
def fallbackModified (output : List Char) : List Line :=
  (textLines output).filterMap readName

end OpteeRpi5.Native
