/-
  The threads of the hotel (IDZ4, the versions with mutexes and with rwlocks) and their
  locks: the administrator, the clients that arrive, and the clients that live in a room.
-/
import OsCourse.Lib.Locks
import OsCourse.Lib.Transition
import OsCourse.Hotel.Clients

namespace Hotel

open Transition System Locks

/-- The two versions of the program. -/
inductive Version where
  | mutexes
  | rwlocks
  deriving DecidableEq

/-- `waiters_mutex`, `room_mutex` and `cout_mutex`. -/
inductive Lock where
  | waiters
  | room
  | cout
  deriving DecidableEq

/-- Where `Administration::run` is. -/
inductive AdminPc where
  /-- before it locks `cout_mutex` -/
  | lockCout
  | printDay
  | unlockCout
  /-- before it locks `waiters_mutex`, at the begin of a day or the end of a round -/
  | lockWaiters
  /-- before the test of the loop -/
  | test
  /-- before the test inside of the loop -/
  | front
  /-- before the unlock in front of `break` -/
  | breakUnlock
  /-- the client `c` has been popped -/
  | popped (c : Client)
  | lockRoom (c : Client)
  /-- before `--rooms_number` -/
  | take (c : Client)
  | unlockRoom (c : Client)
  /-- before `live->start()` -/
  | start (c : Client)
  /-- in `sleep(1)` -/
  | sleep
  | finished
  deriving DecidableEq

/-- Where `Client::run` is. -/
inductive ClientPc where
  /-- in `sleep(checkin_time)` -/
  | sleep
  | lock
  | push
  | unlock
  | finished
  deriving DecidableEq

/-- Where `Client_live::run` is. -/
inductive LivePc where
  | lockIn
  | printIn
  | unlockIn
  /-- in `sleep(args.during)` -/
  | sleep
  | lockRoom
  /-- before `++args.room_number` -/
  | give
  | unlockRoom
  | lockOut
  | printOut
  | unlockOut
  | finished
  deriving DecidableEq

/-- A living client, with `live_args`. -/
structure Live where
  id : ℤ
  during : ℤ
  curTime : ℕ
  pc : LivePc
  deriving DecidableEq

/-- A client thread is named by its place in the list of clients, a living client by the
    order in which they have been started. -/
inductive Thread (n : ℕ) where
  | admin
  | client (i : Fin n)
  | live (j : ℕ)
  deriving DecidableEq

variable {n : ℕ}

structure Data (n : ℕ) where
  curTime : ℕ
  admin : AdminPc
  clients : Fin n → ClientPc
  lives : List Live
  /-- the queue `waiters` -/
  waiters : List Client
  roomsNumber : ℤ
  file : List Line

/-- The next step of the administrator.  With rwlocks it locks `waiters_mutex` once more
    where the other version unlocks it. -/
def nextAdmin (v : Version) (d : Data n) : Option (Op Lock × Data n) :=
  match d.admin with
  | .lockCout => some (.acquire .cout, { d with admin := .printDay })
  | .printDay => some (.keep, { d with admin := .unlockCout, file := d.file ++ [.day d.curTime] })
  | .unlockCout => some (.release .cout, { d with admin := .lockWaiters })
  | .lockWaiters => some (.acquire .waiters, { d with admin := .test })
  | .test =>
    if d.waiters ≠ [] ∧ d.roomsNumber > 0 then some (.keep, { d with admin := .front })
    else some (.keep, { d with admin := .sleep })
  | .front =>
    match d.waiters with
    | [] => some (.keep, { d with admin := .breakUnlock })
    | c :: rest => some (.keep, { d with admin := .popped c, waiters := rest })
  | .breakUnlock => some (.release .waiters, { d with admin := .sleep })
  | .popped c =>
    match v with
    | .mutexes => some (.release .waiters, { d with admin := .lockRoom c })
    | .rwlocks => some (.acquire .waiters, { d with admin := .lockRoom c })
  | .lockRoom c => some (.acquire .room, { d with admin := .take c })
  | .take c => some (.keep, { d with admin := .unlockRoom c, roomsNumber := d.roomsNumber - 1 })
  | .unlockRoom c => some (.release .room, { d with admin := .start c })
  | .start c =>
    some (.keep, { d with
      admin := .lockWaiters
      lives := d.lives ++ [{ id := c.id, during := c.during, curTime := d.curTime, pc := .lockIn }] })
  | .sleep =>
    if d.curTime + 1 < dayCount then some (.keep, { d with curTime := d.curTime + 1, admin := .lockCout })
    else some (.keep, { d with curTime := d.curTime + 1, admin := .finished })
  | .finished => none

/-- The next step of the client `c`, thread `i`. -/
def nextClient (c : Client) (d : Data n) (i : Fin n) : Option (Op Lock × Data n) :=
  let go (pc : ClientPc) : Data n := { d with clients := Function.update d.clients i pc }
  match d.clients i with
  | .sleep => some (.keep, go .lock)
  | .lock => some (.acquire .waiters, go .push)
  | .push => some (.keep, { go .unlock with waiters := d.waiters ++ [c] })
  | .unlock => some (.release .waiters, go .finished)
  | .finished => none

/-- The next step of the living client `l`, thread `j`. -/
def nextLive (l : Live) (d : Data n) (j : ℕ) : Option (Op Lock × Data n) :=
  let go (pc : LivePc) : Data n := { d with lives := d.lives.set j { l with pc := pc } }
  match l.pc with
  | .lockIn => some (.acquire .cout, go .printIn)
  | .printIn => some (.keep, { go .unlockIn with file := d.file ++ [.checkIn l.id l.during] })
  | .unlockIn => some (.release .cout, go .sleep)
  | .sleep => some (.keep, go .lockRoom)
  | .lockRoom => some (.acquire .room, go .give)
  | .give => some (.keep, { go .unlockRoom with roomsNumber := d.roomsNumber + 1 })
  | .unlockRoom => some (.release .room, go .lockOut)
  | .lockOut => some (.acquire .cout, go .printOut)
  | .printOut => some (.keep, { go .unlockOut with file := d.file ++ [.leave l.id] })
  | .unlockOut => some (.release .cout, go .finished)
  | .finished => none

/-- What the threads do next. -/
def next (v : Version) (clients : Fin n → Client) (d : Data n) : Thread n → Option (Op Lock × Data n)
  | .admin => nextAdmin v d
  | .client i => nextClient (clients i) d i
  | .live j => (d.lives[j]?).bind fun l => nextLive l d j

/-- The data when the threads are started. -/
def initialData : Data n :=
  { curTime := 0, admin := .lockCout, clients := fun _ => .sleep, lives := [], waiters := [],
    roomsNumber := roomsCount, file := [] }

abbrev State (n : ℕ) := Locks.State (Data n) (Thread n) Lock

def initial : State n := { data := initialData, holder := fun _ => none }

/-- The threads with their locks, under any schedule; a `sleep` can last for any time. -/
def threads (v : Version) (clients : Fin n → Client) : System (State n) (Thread n) :=
  ofFn initial (Locks.step (next v clients))

end Hotel
