/-
  The counters of the gallery in normal runs: in idz os 3/9 they are right, and the
  clamps at zero do nothing; in idz os 3/10 they are right until the `EXIT` of
  `cleanup` is handled.
-/
import OsCourse.Gallery.Normal

namespace Gallery

open Transition Counting

variable {ι : Type} [Fintype ι] [DecidableEq ι]

/-! ## The clamps -/

/-- The server of idz os 3/9 without the clamps at zero. -/
def V9.unclamped : Version := { V9.version with dec := fun n => n - 1 }

theorem Version.releasePainting_frame {w : Version} {s s' : Server} {i : Slot}
    (h : w.releasePainting s i = .ok s') : s'.currentVisitors = s.currentVisitors ∧ s'.clients = s.clients := by
  unfold releasePainting at h
  split_ifs at h
  · cases h; exact ⟨rfl, rfl⟩
  · split at h
    · cases h; exact ⟨rfl, rfl⟩
    · cases h

/-- Another decrement makes no difference where it gives the same numbers. -/
theorem Version.react_dec {w : Version} {d : ℤ → ℤ} {s : Server} {i : Slot} {inp : Input}
    (hp : ∀ p : Painting, (s.clients i).currentPainting = p.val → w.dec (s.paintingCounts p) = d (s.paintingCounts p))
    (hv : (inp = .closed ∧ w.counted (s.clients i) = true) ∨ (∃ id n, inp = .command id (some .exit) n) →
      w.dec s.currentVisitors = d s.currentVisitors) :
    Version.react { w with dec := d } s i inp = w.react s i inp := by
  have hrel : ∀ s' : Server, (s'.clients i).currentPainting = (s.clients i).currentPainting →
      s'.paintingCounts = s.paintingCounts →
      Version.releasePainting { w with dec := d } s' i = w.releasePainting s' i := by
    intro s' h1 h2
    unfold releasePainting
    rw [h1, h2]
    cases hq : painting? (s.clients i).currentPainting with
    | none => rfl
    | some p => simp only [hp p (painting?_eq_some.1 hq)]
  cases inp with
  | closed =>
    simp only [react, hrel s rfl rfl]
    cases hr : w.releasePainting s i with
    | error f => rfl
    | ok s' =>
      have hs' := releasePainting_frame hr
      simp only [Except.map, hs'.1, hs'.2]
      cases hc : w.counted (s.clients i) with
      | true => rw [hv (.inl ⟨rfl, hc⟩)]; rfl
      | false => rfl
  | monitor | ignored => rfl
  | command id action n =>
    have hset := hrel (s.setClient i { s.clients i with visitorId := id }) (by simp) rfl
    rcases action with _ | _ | _ | _ | _
    · rfl
    · rfl
    · rfl
    · simp only [react, execute, hset]; rfl
    · simp only [react, execute, hset]
      cases hr : w.releasePainting (s.setClient i { s.clients i with visitorId := id }) i with
      | error f => rfl
      | ok s' =>
        have hs' := (releasePainting_frame hr).1
        have hs' : s'.currentVisitors = s.currentVisitors := hs'
        simp only [Except.map, Server.setClient, hs', hv (.inr ⟨id, n, rfl⟩)]
        rfl

/-- In a normal run the server decrements positive counters only. -/
theorem Orderly.react_dec {cw : ClientVersion} {w : Version} (hw : w.Sound) {ids : ι → CInt} {s : Net ι Visitor}
    (h : Orderly cw ids s) {u : ι} {r : Read} {i : Slot} {c : Conn} {inp : Input}
    (hn : s.Normal (.server u r)) (hfirst : s.FirstExit (.server u r)) (hi : s.slot u = some i)
    (hc : (s.conn u).read r = some c) (hd : decode r = .ok inp) :
    Version.react { w with dec := fun n => n - 1 } s.server i inp = w.react s.server i inp := by
  obtain ⟨stay, hu⟩ := h.visitors u
  have hserves := h.serves hi hu
  refine Version.react_dec (?_) ?_
  · intro p hp
    refine hw.dec _ (hserves.counts p ?_)
    have := hserves.painting
    cases stay with
    | «at» q =>
      have hq : q = p := Fin.ext (by simp only [Stay.painting] at this; omega)
      simp [Stay.viewing, hq]
    | _ => simp only [Stay.painting] at this; omega
  · intro hv
    refine hw.dec _ ?_
    rcases hv with ⟨rfl, hcounted⟩ | ⟨id, n, rfl⟩
    · -- only a visitor that has left closes its connection, and it is not counted
      cases r with
      | data buf => exact absurd rfl (decode_data_ne_closed hd)
      | closed =>
        obtain ⟨hclosed, -⟩ := Option.ite_none_right_eq_some.1 hc
        cases hu.loc with
        | start _ _ _ hcl | ready _ _ _ hcl | asked _ _ _ _ hcl | told _ _ _ _ hcl =>
          rw [hcl] at hclosed; cases hclosed
        | gone =>
          rw [hw.counted _ ((hu.slot i hi).2 rfl)] at hcounted; cases hcounted
    · exact hserves.visitors (hu.inside.symm.trans (hfirst id n hd))

/-! ## idz os 3/9 -/

/-- The normal runs of the visitors with the given numbers. -/
def V9.normalVisitors (ids : ι → CInt) : System (Net ι Visitor) (Label ι) :=
  (V9.visitors fun u => (ids u : ℤ)).restrict Net.Normal

theorem V9.orderly {ids : ι → CInt} {s : Net ι Visitor} (h : (V9.normalVisitors ids).Reachable s) :
    Orderly V9.client ids s :=
  System.Inductive.reachable (S := V9.normalVisitors ids) (J := Orderly V9.client ids)
    ⟨fun _ h => h ▸ Orderly.init ids,
      fun _ _ _ h hs => h.step V9.sound V9.gentle hs.2 (h.firstExit rfl hs.2) hs.1⟩ h

/-- **The counters in normal runs.**  In every reachable state `current_visitors` is
    the number of visitors inside, and at most 25, `painting_counts[p]` is the number
    of visitors at `p`, and at most 5, and the handler does what it would do without
    the clamps at zero. -/
theorem V9.normal_counts {ids : ι → CInt} {s : Net ι Visitor} (h : (V9.normalVisitors ids).Reachable s) :
    s.server.currentVisitors = num (fun u => inside s.log u = true) ∧
      s.server.currentVisitors ≤ maxVisitors ∧
      (∀ p, s.server.paintingCounts p = num (fun u => viewing p s.log u = true) ∧
        s.server.paintingCounts p ≤ maxPaintingVisitors) ∧
      ∀ u r s', (V9.normalVisitors ids).step s (.server u r) s' → ∀ i, s.slot u = some i →
        V9.unclamped.handleClientMessage s.server i r = V9.handleClientMessage s.server i r := by
  have ho := V9.orderly h
  refine ⟨ho.admits.1, ho.admits.1.trans_le ho.admits.2, ho.counts, ?_⟩
  rintro u r s' ⟨hs, hn⟩ i hi
  obtain ⟨_, _, _, _, ha, -⟩ | ⟨_, _, ha, -⟩ | ⟨_, _, j, c, inp, x, ha, hj, hc, hd, -⟩ :=
    Net.step_cases ho.legal hs
  · cases ha
  · cases ha
  · cases ha
    obtain rfl := Option.some.inj (hi.symm.trans hj)
    unfold V9.handleClientMessage Version.handleClientMessage
    rw [hd]
    exact ho.react_dec V9.sound hn (ho.firstExit rfl hn) hi hc hd

/-- The visitor 1 connects and enters. -/
def entering : List (Label Unit) :=
  [.client () .connect, .accept () 4, .client () (.draw 0), .server () (.data (Call.enter.message 1)),
    .client () (.recv (enterOk 1))]

theorem V9.normal_counts_entering : ∃ s : Net Unit Visitor, s.server.currentVisitors = 1 ∧
    s.server.currentVisitors = num (fun u => inside s.log u = true) ∧
      s.server.currentVisitors ≤ maxVisitors ∧
      (∀ p, s.server.paintingCounts p = num (fun u => viewing p s.log u = true) ∧
        s.server.paintingCounts p ≤ maxPaintingVisitors) ∧
      ∀ u r s', (V9.normalVisitors fun _ : Unit => .one).step s (.server u r) s' →
        ∀ i, s.slot u = some i →
          V9.unclamped.handleClientMessage s.server i r = V9.handleClientMessage s.server i r := by
  obtain ⟨s, -, he, hs⟩ := System.exec_of_any_restrict (G := Net.Normal) (.init fun _ => Visitor.init)
    (Net.step V9.version fun _ : Unit => Visitor.step V9.client 1) entering
    (fun s => s.server.currentVisitors = 1) (by decide +kernel) (by decide +kernel)
  exact ⟨s, of_decide_eq_true hs, V9.normal_counts ⟨_, he⟩⟩

/-! ## idz os 3/10 -/

/-- The server and the visitors with the given numbers. -/
def V10.visitors (ids : ι → ℤ) : System (Net ι Visitor) (Label ι) :=
  Net.system V10.version (fun u => Visitor.step V10.client (ids u)) fun _ => .init

/-- The normal runs of the visitors; a program ends with `cleanup`. -/
def V10.normalVisitors (ids : ι → CInt) : System (Net ι Visitor) (Label ι) :=
  (V10.visitors fun u => (ids u : ℤ)).restrict Net.Normal

/-- A second `EXIT` takes somebody else off `current_visitors`. -/
theorem V10.not_admits_of_second_exit {s s' : Net ι Visitor} (ha : s.Admits) {u : ι} {i : Slot} {id n : ℤ}
    {x : Reaction} (hh : V10.version.Handles s.server i (.command id (some .exit) n) x)
    (hout : inside s.log u = false) (hserver : s'.server = x.server)
    (hlog : s'.log = ⟨u, .command id (some .exit) n, x.response⟩ :: s.log) : ¬ s'.Admits := by
  rw [ha.cons_iff hlog, hserver]
  cases hh with
  | exit => simp [Entry.inside, hout, Version.reply, V10.version]

/-- **`cleanup` in normal runs.**  In a run of visitors that run to their end,
    `current_visitors` is all along the number of visitors inside, and at most 25,
    iff the server handles no `EXIT` of a visitor that has left. -/
theorem V10.normal_admits_iff {ids : ι → CInt} {tr : List (Net ι Visitor × Label ι)} {s : Net ι Visitor}
    (h : (V10.normalVisitors ids).Exec tr s) :
    System.Always Net.Admits tr s ↔ ∀ x ∈ tr, x.1.FirstExit x.2 := by
  refine h.always_iff (J := Orderly V10.client ids) ⟨?_, ?_⟩ (fun _ h => h.admits) ?_
  · rintro _ rfl; exact Orderly.init ids
  · rintro s a s' h ⟨⟨hs, hn⟩, hfirst⟩; exact h.step V10.sound V10.gentle hn hfirst hs
  · rintro s a s' h ⟨hs, hn⟩ hsecond
    obtain ⟨_, _, _, _, rfl, -⟩ | ⟨_, _, rfl, -⟩ | ⟨u, r, i, c, inp, x, rfl, hi, -, hd, hh, rfl⟩ :=
      Net.step_cases h.legal hs
    · exact absurd trivial hsecond
    · exact absurd trivial hsecond
    · obtain ⟨id, n, hex, hout⟩ : ∃ id n, decode r = .ok (.command id (some .exit) n) ∧ inside s.log u = false := by
        simpa [Net.FirstExit] using hsecond
      obtain rfl := Except.ok.inj (hd.symm.trans hex)
      exact V10.not_admits_of_second_exit h.admits hh hout rfl rfl

/-- The visitor 1 goes to the painting `p` and leaves it. -/
def seeing (p : Painting) : List (Label Unit) :=
  [.client () (.go p), .client () (.go p), .server () (.data ((Call.view p).message 1)),
    .client () (.recv (viewOk 1 p.val)), .client () (.go p),
    .server () (.data ((Call.leavePainting p).message 1)), .client () (.recv (leftPainting 1))]

/-- The visitor 1 sees all paintings and leaves, and its `cleanup` sends `EXIT`
    again. -/
def wholeVisit : List (Label Unit) :=
  entering ++ (List.finRange 5).flatMap seeing ++
    [.client () (.draw 0), .server () (.data (Call.exit.message 1)), .client () (.recv (exitOk 1)),
      .client () (.draw 0), .server () (.data (Call.exit.message 1))]

theorem V10.normal_admits_iff_entering : ∃ (tr : List (Net Unit Visitor × Label Unit))
    (s : Net Unit Visitor), s.server.currentVisitors = 1 ∧
      (System.Always Net.Admits tr s ↔ ∀ x ∈ tr, x.1.FirstExit x.2) := by
  obtain ⟨s, -, he, hs⟩ := System.exec_of_any_restrict (G := Net.Normal) (.init fun _ => Visitor.init)
    (Net.step V10.version fun _ : Unit => Visitor.step V10.client 1) entering
    (fun s => s.server.currentVisitors = 1) (by decide +kernel) (by decide +kernel)
  exact ⟨_, s, of_decide_eq_true hs,
    @V10.normal_admits_iff Unit _ _ (fun _ => .one) _ _ he⟩

/-- **A single visitor leaves `current_visitors` at -1.** -/
theorem V10.whole_visit : ∃ s, (V10.normalVisitors fun _ : Unit => .one).Reachable s ∧
    System.runFn (Net.step V10.version fun _ : Unit => Visitor.step V10.client 1)
      (.init fun _ => Visitor.init) wholeVisit = some s ∧
    s.server.currentVisitors = -1 ∧ inside s.log () = false ∧ ¬ s.Admits := by
  obtain ⟨s, hr, he, hs⟩ := System.exec_of_any_restrict (G := Net.Normal) (.init fun _ => Visitor.init)
    (Net.step V10.version fun _ : Unit => Visitor.step V10.client 1) wholeVisit
    (fun s => s.server.currentVisitors = -1 ∧ inside s.log () = false) (by decide +kernel) (by decide +kernel)
  obtain ⟨h1, h2⟩ := of_decide_eq_true hs
  refine ⟨s, ⟨_, he⟩, hr, h1, h2, fun ha => ?_⟩
  have := ha.1
  omega

end Gallery
