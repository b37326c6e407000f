/-
  The gallery of idz os 3/9 with visitors that may be interrupted at any moment:
  when `current_visitors` counts the visitors inside.
-/
import OsCourse.Gallery.Network
import OsCourse.Lib.Counting
import Mathlib.Tactic.SplitIfs

namespace Gallery

open Transition Counting

variable {ι κ : Type} [Fintype ι] [DecidableEq ι]

/-- `current_visitors` is the number of clients inside, and there are not too many. -/
def Net.Admits (s : Net ι κ) : Prop :=
  s.server.currentVisitors = num (fun u => inside s.log u = true) ∧
    (num (fun u => inside s.log u = true) : ℤ) ≤ maxVisitors

/-- **When one more message has been handled**, `current_visitors` stays right iff
    it moves as the client of the message does. -/
theorem Net.Admits.cons_iff {s s' : Net ι κ} (h : s.Admits) {e : Entry ι} (hlog : s'.log = e :: s.log) :
    s'.Admits ↔
      s'.server.currentVisitors + (inside s.log e.who).toNat =
          s.server.currentVisitors + (e.inside (inside s.log e.who)).toNat ∧
        s'.server.currentVisitors ≤ maxVisitors := by
  have hn := num_change_bool (inside s.log) (inside s'.log) e.who
    fun u hu => by simp [hlog, inside, Ne.symm hu]
  have hself : inside s'.log e.who = e.inside (inside s.log e.who) := by simp [hlog, inside]
  rw [hself] at hn
  obtain ⟨h1, h2⟩ := h
  unfold Net.Admits
  omega

/-- The messages that move `current_visitors` as they move the client: no `ENTER` of
    a client inside is granted, no `EXIT` of a client outside takes somebody else
    off, and the test of the disconnect branch is right about the client. -/
def V9.MovesAlike (s : Server) (i : Slot) (inside : Bool) : Input → Prop
  | .closed => V9.version.counted (s.clients i) = inside ∨ (inside = false ∧ s.currentVisitors = 0)
  | .command _ (some .enter) _ => inside = false ∨ ¬ s.currentVisitors < maxVisitors
  | .command _ (some .exit) _ => inside = true ∨ s.currentVisitors = 0
  | _ => True

theorem V9.admits_iff {s s' : Net ι κ} (h : s.Admits) {u : ι} {i : Slot} {inp : Input} {x : Reaction}
    (hh : V9.version.Handles s.server i inp x) (hserver : s'.server = x.server)
    (hlog : s'.log = ⟨u, inp, x.response⟩ :: s.log) :
    s'.Admits ↔ V9.MovesAlike s.server i (inside s.log u) inp := by
  rw [h.cons_iff hlog, hserver]
  obtain ⟨h1, h2⟩ := h
  rw [← h1] at h2
  have hin : inside s.log u = true → 0 < s.server.currentVisitors := fun hu => by
    have := num_pos (P := fun u => inside s.log u = true) hu
    omega
  cases hh with
  | closed hs =>
    subst hs
    simp only [Entry.inside, V9.MovesAlike]
    cases hu : inside s.log u with
    | true =>
      cases hc : V9.version.counted (s.server.clients i)
      · simp
      · simp [V9.version, hin hu]; omega
    | false =>
      cases hc : V9.version.counted (s.server.clients i)
      · simp; omega
      · simp [V9.version]; split_ifs <;> omega
  | enterOk hlt =>
    simp only [Entry.inside_enterOk, V9.MovesAlike, Version.reply]
    cases hu : inside s.log u with
    | false =>
      refine iff_of_true ⟨?_, Int.add_one_le_iff.2 hlt⟩ (.inl rfl)
      rw [Bool.toNat_false, Bool.toNat_true]
      omega
    | true =>
      refine iff_of_false (fun h => ?_) (fun h => h.elim Bool.noConfusion fun h => h hlt)
      have := h.1
      rw [Bool.toNat_true] at this
      omega
  | enterWait hge =>
    simp only [Entry.inside_enterWait, V9.MovesAlike, Version.reply, hge]
    simpa using h2
  | exit =>
    simp only [Entry.inside, V9.MovesAlike, Version.reply, V9.version]
    cases hu : inside s.log u with
    | true => simp [hin hu]; omega
    | false => simp; split_ifs <;> omega
  | monitor hs => subst hs; simp [Entry.inside, V9.MovesAlike, h2]
  | _ => simp [Entry.inside, V9.MovesAlike, Version.reply, Version.silent, h2]

/-- The steps that keep `current_visitors` right. -/
def V9.KeepsVisitors (s : Net ι κ) : Label ι → Prop
  | .server u r => ∀ i inp, s.slot u = some i → decode r = .ok inp →
      V9.MovesAlike s.server i (inside s.log u) inp
  | _ => True

theorem Net.Admits.of_eq {s s' : Net ι κ} (h : s.Admits)
    (hserver : s'.server.currentVisitors = s.server.currentVisitors) (hlog : s'.log = s.log) : s'.Admits := by
  unfold Net.Admits; rw [hserver, hlog]; exact h

theorem Net.admits_init (start : ι → κ) : (Net.init start).Admits := by
  simp [Net.Admits, Net.init, Server.init, inside, num]

/-- **`current_visitors` counts the visitors inside**, whatever the clients do, iff
    every message moves the counter as it moves its client. -/
theorem V9.always_admits_iff {prog : ι → Program κ} {start : ι → κ} {tr : List (Net ι κ × Label ι)}
    {s : Net ι κ} (h : (Net.system V9.version prog start).Exec tr s) :
    System.Always Net.Admits tr s ↔ ∀ x ∈ tr, V9.KeepsVisitors x.1 x.2 := by
  refine h.always_iff (J := fun s => s.server.Legal ∧ s.Admits) ⟨?_, ?_⟩ (fun _ hs => hs.2) ?_
  · rintro _ rfl; exact ⟨Server.legal_init, Net.admits_init start⟩
  · rintro s a s' ⟨hl, ha⟩ ⟨hs, hk⟩
    refine ⟨Net.Legal.step V9.tidy hl hs, ?_⟩
    obtain ⟨_, _, _, _, -, -, -, rfl⟩ | ⟨_, _, -, -, -, -, rfl⟩ |
      ⟨u, r, i, _, inp, x, rfl, hi, -, hd, hh, rfl⟩ := Net.step_cases hl hs
    · exact ha
    · exact ha.of_eq (by simp) rfl
    · exact (V9.admits_iff ha hh rfl rfl).2 (hk i inp hi hd)
  · rintro s a s' ⟨hl, ha⟩ hs hk ha'
    obtain ⟨_, _, _, _, rfl, -⟩ | ⟨_, _, rfl, -⟩ | ⟨u, r, i, _, inp, x, rfl, hi, -, hd, hh, rfl⟩ :=
      Net.step_cases hl hs
    · exact hk trivial
    · exact hk trivial
    · refine hk fun j inp' hj hd' => ?_
      obtain rfl := Option.some.inj (hi.symm.trans hj)
      obtain rfl := Except.ok.inj (hd.symm.trans hd')
      exact (V9.admits_iff ha hh rfl rfl).1 ha'

/-! ## Visitors with `cleanup` -/

/-- The server and the visitors with the given numbers. -/
def V9.visitors (ids : ι → ℤ) : System (Net ι Visitor) (Label ι) :=
  Net.system V9.version (fun u => Visitor.step V9.client (ids u)) fun _ => .init

/-- **Admission with interruptions.**  In a run of the server with any visitors,
    which may be interrupted at any moment, `current_visitors` is all along the
    number of visitors inside, and at most 25, iff every message that the server
    handles moves the counter as it moves the visitor. -/
theorem V9.visitors_admitted_iff {ids : ι → ℤ} {tr : List (Net ι Visitor × Label ι)} {s : Net ι Visitor}
    (h : (V9.visitors ids).Exec tr s) :
    System.Always Net.Admits tr s ↔ ∀ x ∈ tr, V9.KeepsVisitors x.1 x.2 :=
  V9.always_admits_iff h

/-- The visitors 1 and 2. -/
def oneAndTwo (u : Bool) : ℤ := if u then 2 else 1

/-- The visitor 1 enters. -/
def oneEnters : List (Label (Bool)) :=
  [.client false .connect, .accept false 4, .client false (.draw 0), .server false (.data "1 ENTER -1".toList)]

theorem V9.visitors_admitted_iff_enter : ∃ (tr : List (Net (Bool) Visitor × Label (Bool)))
    (s : Net (Bool) Visitor), s.server.currentVisitors = 1 ∧
    (System.Always Net.Admits tr s ↔ ∀ x ∈ tr, V9.KeepsVisitors x.1 x.2) := by
  obtain ⟨s, -, he, hs⟩ := System.exec_of_any (.init fun _ => Visitor.init)
    (Net.step V9.version fun u => Visitor.step V9.client (oneAndTwo u)) oneEnters
    (fun s => s.server.currentVisitors = 1) (by decide +kernel)
  exact ⟨_, s, of_decide_eq_true hs, V9.visitors_admitted_iff he⟩

/-- The visitor 2 connects, is interrupted before its `ENTER`, and sends `EXIT`. -/
def otherInterrupted : List (Label (Bool)) :=
  [.client true .connect, .accept true 5, .client true .signal, .server true (.data "2 EXIT -1".toList)]

/-- **An interrupted visitor takes another one off the counter**: visitor 1 is
    inside, and `current_visitors` is 0. -/
theorem V9.interrupted_before_enter : ∃ s, (V9.visitors oneAndTwo).Reachable s ∧
    System.runFn (Net.step V9.version fun u => Visitor.step V9.client (oneAndTwo u))
      (.init fun _ => Visitor.init) (oneEnters ++ otherInterrupted) = some s ∧
    s.server.currentVisitors = 0 ∧ inside s.log false = true ∧ inside s.log true = false ∧ ¬ s.Admits := by
  obtain ⟨s, hr, he, hs⟩ := System.exec_of_any (.init fun _ => Visitor.init)
    (Net.step V9.version fun u => Visitor.step V9.client (oneAndTwo u)) (oneEnters ++ otherInterrupted)
    (fun s => s.server.currentVisitors = 0 ∧ inside s.log false = true ∧ inside s.log true = false)
    (by decide +kernel)
  obtain ⟨h1, h2, h3⟩ := of_decide_eq_true hs
  refine ⟨s, ⟨_, he⟩, hr, h1, h2, h3, fun ha => ?_⟩
  have := num_pos (P := fun u => inside s.log u = true) h2
  have := ha.1
  omega

end Gallery
