/-
  The loggers of the student server (idz os 4/8, 4/9 and 4/10): the table with its
  functions.  A function that sends returns what it tries to send, in order;
  `fails i` says that `sendto` fails for the `i`-th entry.
-/
import OsCourse.Lib.Text

namespace Students

open Text

/-- An IPv4 address, as the four bytes of `sin_addr`. -/
structure IpAddr where
  a : UInt8
  b : UInt8
  c : UInt8
  d : UInt8
  deriving DecidableEq

/-- A `sockaddr_in`. -/
structure Address where
  ip : IpAddr
  port : UInt16
  deriving DecidableEq

/-- A decimal number of one byte, without leading zeros. -/
def octet (t : Text) : Option UInt8 :=
  let n := Nat.ofDigitChars 10 t 0
  if n < 256 ∧ Nat.toDigits 10 n = t then some (UInt8.ofNat n) else none

/-- `inet_pton(AF_INET, t, ...)` -/
def inetPton (t : Text) : Option IpAddr :=
  match t.splitOn '.' with
  | [a, b, c, d] => do return ⟨← octet a, ← octet b, ← octet c, ← octet d⟩
  | _ => none

/-- `inet_ntoa` and `inet_ntop` -/
def inetNtoa (ip : IpAddr) : Text :=
  let byte (x : UInt8) : Text := Nat.toDigits 10 x.toNat
  byte ip.a ++ '.' :: (byte ip.b ++ '.' :: (byte ip.c ++ '.' :: byte ip.d))

/-- `%s:%d` of an address. -/
def Address.text (a : Address) : Text := inetNtoa a.ip ++ ':' :: Nat.toDigits 10 a.port.toNat

/-- `MAX_LOGGERS` -/
abbrev maxLoggers : ℕ := 10

/-- `HEARTBEAT_INTERVAL`, in seconds. -/
abbrev heartbeatInterval : ℕ := 30

/-- `LOGGER_TIMEOUT` -/
abbrev loggerTimeout : ℕ := heartbeatInterval * 2

structure Logger where
  addr : Address
  active : Bool
  lastActive : ℕ
  deriving DecidableEq

/-- `loggers[0..num_loggers)` -/
abbrev Table := List Logger

/-- The test for an entry: `sin_port == htons(port) && strcmp(inet_ntoa(sin_addr), ip) == 0`. -/
def Logger.is (ip : Text) (port : ℤ) (l : Logger) : Bool :=
  l.addr.port == UInt16.ofInt port && inetNtoa l.addr.ip == ip

/-- The first entry with the property `p` is changed by `f`. -/
def modifyFirst (p : Logger → Bool) (f : Logger → Logger) : Table → Table
  | [] => []
  | l :: t => if p l then f l :: t else l :: modifyFirst p f t

/-- `add_logger` at the time `now`.  `unknown` is what it does when `inet_pton` fails:
    return, or go on with the address 0.0.0.0. -/
def addLoggerWith (unknown : Option IpAddr) (now : ℕ) (t : Table) (ip : Text) (port : ℤ) : Table :=
  if t.length ≥ maxLoggers then t
  else if t.any (Logger.is ip port) then
    modifyFirst (Logger.is ip port) (fun l => { l with active := true, lastActive := now }) t
  else
    match (inetPton ip).or unknown with
    | none => t
    | some a => t ++ [{ addr := ⟨a, UInt16.ofInt port⟩, active := true, lastActive := now }]

/-- A call of `sendto`. -/
structure Send where
  addr : Address
  msg : Text
  ok : Bool
  deriving DecidableEq

namespace V8

/-- `add_logger`; there is no `last_active`, and no test for an entry that is there. -/
def addLogger (t : List Address) (ip : Text) (port : ℤ) : List Address :=
  if t.length ≥ maxLoggers then t
  else t ++ [⟨(inetPton ip).getD ⟨0, 0, 0, 0⟩, UInt16.ofInt port⟩]

/-- `send_to_loggers`; all entries are active. -/
def sendToLoggers (t : List Address) (msg : Text) : List (Address × Text) := t.map fun a => (a, msg)

end V8

namespace V9

def addLogger : ℕ → Table → Text → ℤ → Table := addLoggerWith none

def removeLogger (t : Table) (ip : Text) (port : ℤ) : Table :=
  modifyFirst (Logger.is ip port) (fun l => { l with active := false }) t

/-- `send_to_loggers`: an entry to which it cannot send is deactivated. -/
def sendToLoggers (fails : ℕ → Bool) (t : Table) (msg : Text) : Table × List Send :=
  let r := t.mapIdx fun i l =>
    if l.active then ({ l with active := !fails i }, [{ addr := l.addr, msg := msg, ok := !fails i }]) else (l, [])
  (r.map Prod.fst, (r.map Prod.snd).flatten)

/-- The round of `check_heartbeats` for one entry. -/
def heartbeat (now : ℕ) (failed : Bool) (l : Logger) : Logger × List Send :=
  if l.active then
    if now - l.lastActive ≥ loggerTimeout then ({ l with active := false }, [])
    else ({ l with active := !failed }, [{ addr := l.addr, msg := "PING".toList, ok := !failed }])
  else (l, [])

/-- `check_heartbeats` with its static `last_check`. -/
def checkHeartbeats (now : ℕ) (fails : ℕ → Bool) (lastCheck : ℕ) (t : Table) : Table × ℕ × List Send :=
  if now - lastCheck ≥ heartbeatInterval then
    let r := t.mapIdx fun i l => heartbeat now (fails i) l
    (r.map Prod.fst, now, (r.map Prod.snd).flatten)
  else (t, lastCheck, [])

/-- The answer to `STATUS`. -/
def status (t : Table) : Text :=
  "STATUS: ".toList ++ Nat.toDigits 10 (t.countP Logger.active) ++ " active loggers (".toList ++
    Nat.toDigits 10 t.length ++ " total)".toList

/-- `handle_logger_command`; whether the answer to `STATUS` is sent is not looked at. -/
def handleLoggerCommand (now : ℕ) (t : Table) (cmd : Text) (loggerAddr : Address) :
    Table × List (Address × Text) :=
  let ip := inetNtoa loggerAddr.ip
  let port : ℤ := loggerAddr.port.toNat
  if "REGISTER".toList.isPrefixOf cmd then (addLogger now t ip port, [])
  else if "UNREGISTER".toList.isPrefixOf cmd then (removeLogger t ip port, [])
  else if "PONG".toList.isPrefixOf cmd then
    (modifyFirst (fun l => l.addr == loggerAddr) (fun l => { l with lastActive := now }) t, [])
  else if "STATUS".toList.isPrefixOf cmd then (t, [(loggerAddr, status t)])
  else (t, [])

end V9

namespace V10

def addLogger : ℕ → Table → Text → ℤ → Table := addLoggerWith (some ⟨0, 0, 0, 0⟩)

/-- `send_to_loggers` -/
def sendToLoggers (t : Table) (msg : Text) : List (Address × Text) :=
  (t.filter Logger.active).map fun l => (l.addr, msg)

end V10

end Students
