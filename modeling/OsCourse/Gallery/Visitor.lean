/-
  The clients of the gallery (idz os 3/9 and 3/10): the visitors and the monitors,
  as programs that stop wherever they wait for something.
-/
import OsCourse.Gallery.Server

namespace Gallery

abbrev numPaintings : ℕ := 5
abbrev maxAttempts : ℕ := 3

/-! ## Programs -/

/-- What may happen to a program: its next statements run up to the place where it
    waits again (`p` is the number drawn by `rand`, if one is drawn), or the
    system does something to it. -/
inductive Act
  | connect
  | go (p : Painting)
  | recv (buf : Text)
  | timeout
  | fail
  | signal
  | kill
  deriving DecidableEq

/-- `go`, when `rand` draws `n`. -/
def Act.draw (n : ℕ) : Act := .go (Fin.ofNat numPaintings n)

/-- The program afterwards, what it has sent, and whether it has closed its
    socket. -/
structure Effect (κ : Type) where
  state : κ
  sends : List Text
  closes : Bool

/-- A client program; not everything may happen everywhere. -/
abbrev Program (κ : Type) := κ → Act → Option (Effect κ)

/-- The program goes on, and sends nothing. -/
def Effect.goOn {κ : Type} (k : κ) : Effect κ := { state := k, sends := [], closes := false }

/-! ## Visitors -/

/-- The calls of `send_and_wait_response`; the first `ENTER` and those of the
    waiting loop are different calls. -/
inductive Call
  | enter
  | reenter
  | view (p : Painting)
  | leavePainting (p : Painting)
  | exit
  deriving DecidableEq

def Call.action : Call → Action
  | enter | reenter => .enter
  | view _ => .view
  | leavePainting _ => .leavePainting
  | exit => .exit

def Call.number : Call → ℤ
  | view p | leavePainting p => p.val
  | _ => -1

def Call.message (id : ℤ) (c : Call) : Text := commandText id c.action c.number

/-- Where a visitor stands. -/
inductive Pc
  | start
  /-- before `send`; `attempts` have failed -/
  | send (c : Call) (attempts : ℕ)
  /-- in `recv` -/
  | wait (c : Call) (attempts : ℕ)
  /-- before `rand` -/
  | choose
  /-- `visit_gallery` has returned -/
  | returned
  | closed
  deriving DecidableEq

/-- The variables of `visit_gallery`, and `g_shutdown`. -/
structure Visitor where
  pc : Pc
  visited : Painting → Bool
  paintingsToVisit : ℕ
  shutdown : Bool

/-- What differs between the clients. -/
structure ClientVersion where
  /-- `process_server_response` returns -1 -/
  refuses : Text → Bool
  /-- a signal sets `g_shutdown`, else it runs `cleanup` and ends the program -/
  flags : Bool
  /-- `cleanup` runs at the end of the program -/
  atExit : Bool

namespace Visitor

def init : Visitor := { pc := .start, visited := fun _ => false, paintingsToVisit := numPaintings, shutdown := false }

/-- The head of the loop over the paintings. -/
def viewLoop (v : Visitor) : Visitor :=
  if v.shutdown then { v with pc := .returned }
  else if 0 < v.paintingsToVisit then { v with pc := .choose }
  else { v with pc := .send .exit 0 }

/-- The head of the loop that waits for a place. -/
def waitLoop (v : Visitor) : Visitor :=
  if v.shutdown then v.viewLoop else { v with pc := .send .reenter 0 }

/-- What `visit_gallery` does with the result of `send_and_wait_response`: `none`
    when it failed, else the response. -/
def afterCall (v : Visitor) : Call → Option Text → Visitor
  | _, none => { v with pc := .returned }
  | .enter, some response =>
    if Text.strstr response "ENTER_WAIT".toList then v.waitLoop else v.viewLoop
  | .reenter, some response =>
    if Text.strstr response "ENTER_OK".toList then v.viewLoop else v.waitLoop
  | .view p, some response =>
    if Text.strstr response "VIEW_OK".toList then
      { v with visited := Function.update v.visited p true
               paintingsToVisit := v.paintingsToVisit - 1
               pc := .send (.leavePainting p) 0 }
    else v.viewLoop
  | .leavePainting _, some _ => v.viewLoop
  | .exit, some _ => { v with pc := .returned }

/-- `cleanup`, and the end of the program. -/
def cleanup (id : ℤ) (v : Visitor) : Effect Visitor :=
  { state := { v with pc := .closed }, sends := [Call.exit.message id], closes := true }

/-- The end of the program without `cleanup`. -/
def leave (v : Visitor) : Effect Visitor := { state := { v with pc := .closed }, sends := [], closes := true }

/-- The program of the visitor `id`. -/
def step (w : ClientVersion) (id : ℤ) : Program Visitor := fun v a =>
  match a, v.pc with
  | .connect, .start => some (.goOn { v with pc := .send .enter 0 })
  | .go _, .send c attempts =>
    if v.shutdown then some (.goOn (v.afterCall c none))
    else some { state := { v with pc := .wait c attempts }, sends := [c.message id], closes := false }
  | .go p, .choose =>
    some (.goOn (if v.visited p then v.viewLoop else { v with pc := .send (.view p) 0 }))
  | .go _, .returned => some (if w.atExit then v.cleanup id else v.leave)
  | .recv buf, .wait c _ =>
    some (.goOn (v.afterCall c (if w.refuses (Text.cstr buf) then none else some (Text.cstr buf))))
  | .timeout, .wait c attempts =>
    some (.goOn (if attempts + 1 < maxAttempts then { v with pc := .send c (attempts + 1) }
      else v.afterCall c none))
  | .fail, .send c _ | .fail, .wait c _ => some (.goOn (v.afterCall c none))
  | .signal, .closed => none
  | .signal, .start => some (if w.flags then .goOn { v with shutdown := true } else v.leave)
  | .signal, _ => some (if w.flags then .goOn { v with shutdown := true } else v.cleanup id)
  | .kill, .closed => none
  | .kill, _ => some v.leave
  | _, _ => none

end Visitor

/-- idz os 3/9: a signal makes the visitor send `EXIT`. -/
def V9.client : ClientVersion where
  refuses _ := false
  flags := false
  atExit := false

/-- idz os 3/10: the visitor sends `EXIT` when its program ends. -/
def V10.client : ClientVersion where
  refuses t := Text.strstr t "SERVER_SHUTDOWN".toList
  flags := true
  atExit := true

/-! ## Monitors -/

inductive Monitor
  | start
  | register
  | watch
  | closed
  deriving DecidableEq

/-- The program of a monitor: it connects, sends `MONITOR` and reads status lines,
    until it is stopped. -/
def Monitor.step : Program Monitor := fun m a =>
  match a, m with
  | .connect, .start => some (.goOn .register)
  | .go _, .register => some { state := .watch, sends := [monitorText], closes := false }
  | .recv _, .watch => some (.goOn .watch)
  | .kill, .register | .kill, .watch => some { state := .closed, sends := [], closes := true }
  | _, _ => none

end Gallery
