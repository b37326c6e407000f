/-
  The gallery servers (idz os 3/9 and 3/10): the table of clients, the counters
  and the handling of one message.  The two servers are one program with a few
  differences, which `Version` lists.
-/
import OsCourse.Lib.Text
import Mathlib.Data.Fintype.Basic

namespace Gallery

abbrev maxVisitors : ℤ := 25
abbrev maxPaintingVisitors : ℤ := 5
abbrev maxClients : ℕ := 300
abbrev bufferSize : ℕ := 1024

/-- An index of `clients`. -/
abbrev Slot := Fin maxClients

/-- An index of `painting_counts`. -/
abbrev Painting := Fin 5

/-- The values of type `int`. -/
def IsInt (n : ℤ) : Prop := -2147483648 ≤ n ∧ n ≤ 2147483647

instance (n : ℤ) : Decidable (IsInt n) := inferInstanceAs (Decidable (_ ∧ _))

/-- `client_t` -/
structure Client where
  fd : ℤ
  visitorId : ℤ
  currentPainting : ℤ
  isMonitor : Bool
  sentExit : Bool
  deriving DecidableEq

/-- The global variables of a server. -/
structure Server where
  clients : Slot → Client
  currentVisitors : ℤ
  paintingCounts : Painting → ℤ

/-- Where the behaviour of the C program is undefined: a word too long for
    `action[20]`, a number that is no `int`, an index outside `painting_counts`. -/
inductive Fault
  | action (length : ℕ)
  | number (n : ℤ)
  | index (n : ℤ)
  deriving DecidableEq

namespace Server

/-- The state before the first connection. -/
def init : Server where
  clients _ := { fd := -1, visitorId := -1, currentPainting := -1, isMonitor := false, sentExit := false }
  currentVisitors := 0
  paintingCounts _ := 0

def setClient (s : Server) (i : Slot) (c : Client) : Server :=
  { s with clients := Function.update s.clients i c }

/-- The slot has a connection. -/
def IsOpen (s : Server) (i : Slot) : Prop := (s.clients i).fd ≠ -1

instance (s : Server) (i : Slot) : Decidable (s.IsOpen i) := inferInstanceAs (Decidable (_ ≠ _))

/-- The first free slot. -/
def freeSlot (s : Server) : Option Slot :=
  (List.finRange maxClients).find? fun i => (s.clients i).fd = -1

/-- A new socket is put into the first free slot, the other fields of which keep
    their values.  If there is none the socket is forgotten. -/
def accept (s : Server) (newSocket : ℤ) : Server :=
  match s.freeSlot with
  | some i => s.setClient i { s.clients i with fd := newSocket }
  | none => s

end Server

/-! ## Messages -/

/-- The commands that the handler knows. -/
inductive Action
  | enter
  | view
  | leavePainting
  | exit
  deriving DecidableEq

def Action.name : Action → Text
  | enter => "ENTER".toList
  | view => "VIEW".toList
  | leavePainting => "LEAVE_PAINTING".toList
  | exit => "EXIT".toList

/-- The chain of `strcmp` of the handler. -/
def Action.ofText (w : Text) : Option Action :=
  if w = enter.name then some enter
  else if w = view.name then some view
  else if w = leavePainting.name then some leavePainting
  else if w = exit.name then some exit
  else none

/-- `"%d <action> %d"` -/
def commandText (id : ℤ) (a : Action) (n : ℤ) : Text :=
  Text.fmtInt id ++ ' ' :: (a.name ++ ' ' :: Text.fmtInt n)

def monitorText : Text := "MONITOR".toList

/-- What `read` returned. -/
inductive Read
  | closed
  | data (buf : Text)
  deriving DecidableEq

/-- What the handler makes of it. -/
inductive Input
  | closed
  | monitor
  | ignored
  | command (id : ℤ) (action : Option Action) (n : ℤ)
  deriving DecidableEq

/-- A number stored by `%d`. -/
def storeInt (n : ℤ) : Except Fault ℤ := if IsInt n then .ok n else .error (.number n)

/-- `sscanf(buffer, "%d %s %d", &visitor_id, action, &painting_num)`; `none` if it
    does not return 3. -/
def scanCommand (t : Text) : Except Fault (Option (ℤ × Text × ℤ)) :=
  match Text.scanInt t with
  | none => .ok none
  | some (id, t) => (storeInt id).bind fun id =>
    match Text.scanWord t with
    | none => .ok none
    | some (w, t) =>
      if 20 ≤ w.length then .error (.action w.length)
      else match Text.scanInt t with
        | none => .ok none
        | some (n, _) => (storeInt n).map fun n => some (id, w, n)

def decode : Read → Except Fault Input
  | .closed => .ok .closed
  | .data buf => (scanCommand (Text.cstr buf)).map fun
    | some (id, w, n) => .command id (Action.ofText w) n
    | none => if Text.cstr buf = monitorText then .monitor else .ignored

/-! ## Replies -/

def enterOk (id : ℤ) : Text := "ENTER_OK ".toList ++ Text.fmtInt id

def enterWait (id : ℤ) : Text := "ENTER_WAIT ".toList ++ Text.fmtInt id

def viewOk (id n : ℤ) : Text := "VIEW_OK ".toList ++ (Text.fmtInt id ++ ' ' :: Text.fmtInt n)

def viewWait (id n : ℤ) : Text := "VIEW_WAIT ".toList ++ (Text.fmtInt id ++ ' ' :: Text.fmtInt n)

def leftPainting (id : ℤ) : Text := "LEFT_PAINTING ".toList ++ Text.fmtInt id

def exitOk (id : ℤ) : Text := "EXIT_OK ".toList ++ Text.fmtInt id

/-- `"%d %d %d %d %d %d"` -/
def statusText (s : Server) : Text :=
  List.intercalate [' '] (Text.fmtInt s.currentVisitors ::
    (List.finRange 5).map fun p => Text.fmtInt (s.paintingCounts p))

/-! ## The handler -/

/-- The result of one call of the handler: the new state, the calls of `send` in
    their order, and the text in `response`. -/
structure Reaction where
  server : Server
  sends : List (ℤ × Text)
  response : Text

/-- The painting with number `n`. -/
def painting? (n : ℤ) : Option Painting :=
  if h : 0 ≤ n ∧ n < 5 then some ⟨n.toNat, by omega⟩ else none

/-- What differs between the servers. -/
structure Version where
  /-- how a counter goes down -/
  dec : ℤ → ℤ
  /-- whether a disconnect takes the client off `current_visitors` -/
  counted : Client → Bool
  /-- what `EXIT` leaves in `current_painting` -/
  painting : ℤ → ℤ
  /-- what the status line ends with -/
  statusEnd : Text
  /-- whether the status line is sent before the reply -/
  statusFirst : Bool

namespace Version
variable (w : Version)

def broadcastStatus (s : Server) : List (ℤ × Text) :=
  (List.finRange maxClients).filterMap fun i =>
    if s.IsOpen i ∧ (s.clients i).isMonitor then some ((s.clients i).fd, statusText s ++ w.statusEnd)
    else none

/-- The client of slot `i` is taken off `painting_counts`. -/
def releasePainting (s : Server) (i : Slot) : Except Fault Server :=
  if (s.clients i).currentPainting = -1 then .ok s
  else match painting? (s.clients i).currentPainting with
    | some p =>
      .ok { s with paintingCounts := Function.update s.paintingCounts p (w.dec (s.paintingCounts p)) }
    | none => .error (.index (s.clients i).currentPainting)

/-- The end of the handler: `response` is sent to the client of slot `i`, and the
    status line to the monitors. -/
def reply (s : Server) (i : Slot) (response : Text) : Reaction where
  server := s
  response := response
  sends :=
    if w.statusFirst then w.broadcastStatus s ++ [((s.clients i).fd, response)]
    else ((s.clients i).fd, response) :: w.broadcastStatus s

/-- The end of the handler when `response` is empty. -/
def silent (s : Server) : Reaction := { server := s, sends := [], response := [] }

/-- The branches of `handle_client_message` on `action`, after `visitor_id` has
    been stored. -/
def execute (s : Server) (i : Slot) (id n : ℤ) : Option Action → Except Fault Reaction
  | some .enter => .ok <|
    if s.currentVisitors < maxVisitors then
      w.reply { s with currentVisitors := s.currentVisitors + 1 } i (enterOk id)
    else w.reply s i (enterWait id)
  | some .view => .ok <|
    match painting? n with
    | some p =>
      if s.paintingCounts p < maxPaintingVisitors then
        let s := { s with paintingCounts := Function.update s.paintingCounts p (s.paintingCounts p + 1) }
        w.reply (s.setClient i { s.clients i with currentPainting := n }) i (viewOk id n)
      else w.reply s i (viewWait id n)
    | none => silent s
  | some .leavePainting =>
    if (s.clients i).currentPainting = -1 then .ok (silent s)
    else (w.releasePainting s i).map fun s =>
      w.reply (s.setClient i { s.clients i with currentPainting := -1 }) i (leftPainting id)
  | some .exit => (w.releasePainting s i).map fun s =>
    let s := s.setClient i { s.clients i with
      currentPainting := w.painting (s.clients i).currentPainting, sentExit := true }
    w.reply { s with currentVisitors := w.dec s.currentVisitors } i (exitOk id)
  | none => .ok (silent s)

/-- What the handler does with its input from slot `i`. -/
def react (s : Server) (i : Slot) : Input → Except Fault Reaction
  | .closed => (w.releasePainting s i).map fun s =>
    let s := if w.counted (s.clients i) then { s with currentVisitors := w.dec s.currentVisitors } else s
    let s := s.setClient i { s.clients i with fd := -1 }
    { server := s, sends := w.broadcastStatus s, response := [] }
  | .monitor =>
    let s := s.setClient i { s.clients i with isMonitor := true }
    .ok { server := s, sends := w.broadcastStatus s, response := [] }
  | .ignored => .ok (silent s)
  | .command id action n => w.execute (s.setClient i { s.clients i with visitorId := id }) i id n action

def handleClientMessage (s : Server) (i : Slot) (r : Read) : Except Fault Reaction :=
  (decode r).bind (w.react s i)

end Version

/-- idz os 3/9: the counters do not go below zero. -/
def V9.version : Version where
  dec n := if 0 < n then n - 1 else 0
  counted c := c.visitorId != -1 && !c.isMonitor && !c.sentExit
  painting _ := -1
  statusEnd := [' ']
  statusFirst := true

def V9.handleClientMessage : Server → Slot → Read → Except Fault Reaction :=
  V9.version.handleClientMessage

/-- idz os 3/10 -/
def V10.version : Version where
  dec n := n - 1
  counted c := !c.isMonitor && !c.sentExit
  painting n := n
  statusEnd := []
  statusFirst := false

def V10.handleClientMessage : Server → Slot → Read → Except Fault Reaction :=
  V10.version.handleClientMessage

end Gallery
