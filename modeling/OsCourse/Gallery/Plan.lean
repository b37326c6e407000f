/-
  The plan of a visitor: what its program does next, case by case, and that `visited` and
  `paintings_to_visit` fit together whatever happens to it.
-/
import OsCourse.Gallery.Pairing
import OsCourse.Lib.Counting

namespace Gallery

open Counting

variable {cw : ClientVersion} {id : ℤ} {v : Visitor}

/-! ## The steps of a visitor -/

/-- **The steps of a visitor.** -/
inductive Visitor.Runs (cw : ClientVersion) (id : ℤ) (v : Visitor) : Act → Effect Visitor → Prop
  | connect : v.pc = .start → Runs cw id v .connect (.goOn { v with pc := .send .enter 0 })
  | send {p : Painting} {k : Call} {attempts : ℕ} : v.pc = .send k attempts → v.shutdown = false →
      Runs cw id v (.go p) { state := { v with pc := .wait k attempts }, sends := [k.message id], closes := false }
  | stopped {p : Painting} {k : Call} {attempts : ℕ} : v.pc = .send k attempts → v.shutdown = true →
      Runs cw id v (.go p) (.goOn { v with pc := .returned })
  | choose {p : Painting} : v.pc = .choose →
      Runs cw id v (.go p) (.goOn (if v.visited p then v.viewLoop else { v with pc := .send (.view p) 0 }))
  | ends {p : Painting} : v.pc = .returned → Runs cw id v (.go p) (if cw.atExit then v.cleanup id else v.leave)
  | recv {buf : Text} {k : Call} {attempts : ℕ} : v.pc = .wait k attempts →
      Runs cw id v (.recv buf)
        (.goOn (v.afterCall k (if cw.refuses (Text.cstr buf) then none else some (Text.cstr buf))))
  | again {k : Call} {attempts : ℕ} : v.pc = .wait k attempts → attempts + 1 < maxAttempts →
      Runs cw id v .timeout (.goOn { v with pc := .send k (attempts + 1) })
  | givesUp {k : Call} {attempts : ℕ} : v.pc = .wait k attempts → ¬ attempts + 1 < maxAttempts →
      Runs cw id v .timeout (.goOn { v with pc := .returned })
  | fails {k : Call} {attempts : ℕ} : v.pc = .send k attempts ∨ v.pc = .wait k attempts →
      Runs cw id v .fail (.goOn { v with pc := .returned })
  | flagged : v.pc ≠ .closed → cw.flags = true → Runs cw id v .signal (.goOn { v with shutdown := true })
  | interrupted : v.pc ≠ .closed → cw.flags = false →
      Runs cw id v .signal (if v.pc = .start then v.leave else v.cleanup id)
  | killed : v.pc ≠ .closed → Runs cw id v .kill v.leave

theorem Visitor.runs_of_step {a : Act} {e : Effect Visitor} (he : Visitor.step cw id v a = some e) :
    Runs cw id v a e := by
  unfold Visitor.step at he
  cases a with
  | connect =>
    cases hpc : v.pc with
    | start =>
      rw [hpc] at he
      obtain rfl := Option.some.inj he
      exact .connect hpc
    | _ => rw [hpc] at he; cases he
  | go p =>
    cases hpc : v.pc with
    | send k attempts =>
      simp only [hpc] at he
      split_ifs at he with hs
      · obtain rfl := Option.some.inj he
        rw [afterCall_none]
        exact .stopped hpc hs
      · obtain rfl := Option.some.inj he
        exact .send hpc (Bool.eq_false_iff.2 hs)
    | choose =>
      rw [hpc] at he
      obtain rfl := Option.some.inj he
      exact .choose hpc
    | returned =>
      rw [hpc] at he
      obtain rfl := Option.some.inj he
      exact .ends hpc
    | _ => rw [hpc] at he; cases he
  | recv buf =>
    cases hpc : v.pc with
    | wait k attempts =>
      rw [hpc] at he
      obtain rfl := Option.some.inj he
      exact .recv hpc
    | _ => rw [hpc] at he; cases he
  | timeout =>
    cases hpc : v.pc with
    | wait k attempts =>
      simp only [hpc] at he
      obtain rfl := Option.some.inj he
      split_ifs with hlt
      · exact .again hpc hlt
      · rw [afterCall_none]
        exact .givesUp hpc hlt
    | _ => rw [hpc] at he; cases he
  | fail =>
    cases hpc : v.pc with
    | send k attempts =>
      rw [hpc] at he
      obtain rfl := Option.some.inj he
      rw [afterCall_none]
      exact .fails (.inl hpc)
    | wait k attempts =>
      rw [hpc] at he
      obtain rfl := Option.some.inj he
      rw [afterCall_none]
      exact .fails (.inr hpc)
    | _ => rw [hpc] at he; cases he
  | signal =>
    have hne : v.pc ≠ .closed := by
      intro hpc
      rw [hpc] at he
      cases he
    cases hflags : cw.flags with
    | true =>
      have he' : e = .goOn { v with shutdown := true } := by
        cases hpc : v.pc with
        | closed => exact absurd hpc hne
        | _ => simpa [hpc, hflags, eq_comm] using he
      rw [he']
      exact .flagged hne hflags
    | false =>
      have he' : e = if v.pc = .start then v.leave else v.cleanup id := by
        cases hpc : v.pc with
        | closed => exact absurd hpc hne
        | _ => simpa [hpc, hflags, eq_comm] using he
      rw [he']
      exact .interrupted hne hflags
  | kill =>
    have hne : v.pc ≠ .closed := by
      intro hpc
      rw [hpc] at he
      cases he
    have he' : e = v.leave := by
      cases hpc : v.pc with
      | closed => exact absurd hpc hne
      | _ => simpa [hpc, eq_comm] using he
    rw [he']
    exact .killed hne

/-! ## The paintings to visit -/

/-- What the place of the program says of the paintings to visit. -/
def Pc.Counted (visited : Painting → Bool) (paintingsToVisit : ℕ) : Pc → Prop
  | .choose => 0 < paintingsToVisit
  | .send (.view p) _ | .wait (.view p) _ => visited p = false
  | _ => True

/-- `paintings_to_visit` is the number of the paintings that are not visited, and the
    visitor goes to one of them. -/
structure Visitor.Counted (v : Visitor) : Prop where
  toVisit : v.paintingsToVisit = num fun p => v.visited p = false
  pc : v.pc.Counted v.visited v.paintingsToVisit

namespace Visitor

theorem counted_init : init.Counted := ⟨by decide, trivial⟩

theorem Counted.pos (h : v.Counted) {p : Painting} (hp : v.visited p = false) : 0 < v.paintingsToVisit := by
  rw [h.toVisit]
  exact num_pos (P := fun p => v.visited p = false) hp

/-- A visitor that is about to choose finds a painting that it has not visited. -/
theorem Counted.exists_unvisited (h : v.Counted) (hpc : v.pc = .choose) : ∃ p, v.visited p = false := by
  have hpos := h.pc
  rw [hpc] at hpos
  have hpos : 0 < v.paintingsToVisit := hpos
  rw [h.toVisit] at hpos
  exact exists_of_num_pos hpos

theorem counted_viewLoop (hn : v.paintingsToVisit = num fun p => v.visited p = false) : v.viewLoop.Counted := by
  unfold viewLoop
  split_ifs with hs hpos
  · exact ⟨hn, trivial⟩
  · exact ⟨hn, hpos⟩
  · exact ⟨hn, trivial⟩

theorem counted_waitLoop (hn : v.paintingsToVisit = num fun p => v.visited p = false) : v.waitLoop.Counted := by
  unfold waitLoop
  split_ifs
  · exact counted_viewLoop hn
  · exact ⟨hn, trivial⟩

/-- A painting that the visitor sees is no longer one to visit. -/
theorem num_update_visited {visited : Painting → Bool} {p : Painting} (hp : visited p = false) :
    num (fun q => Function.update visited p true q = false) = num (fun q => visited q = false) - 1 := by
  have := num_update (fun b : Bool => b = false) visited p true
  simp only [hp, if_true, if_false, reduceCtorEq] at this
  omega

theorem Counted.afterCall (h : v.Counted) {k : Call} {attempts : ℕ} (hpc : v.pc = .wait k attempts)
    (r : Option Text) : (v.afterCall k r).Counted := by
  have hplan := h.pc
  rw [hpc] at hplan
  cases r with
  | none =>
    rw [afterCall_none]
    exact ⟨h.toVisit, trivial⟩
  | some r =>
    cases k with
    | enter | reenter =>
      simp only [Visitor.afterCall]
      split_ifs
      all_goals first | exact counted_waitLoop h.toVisit | exact counted_viewLoop h.toVisit
    | view p =>
      simp only [Visitor.afterCall]
      split_ifs
      · exact ⟨by rw [num_update_visited hplan, h.toVisit], trivial⟩
      · exact counted_viewLoop h.toVisit
    | leavePainting p => exact counted_viewLoop h.toVisit
    | exit => exact ⟨h.toVisit, trivial⟩

/-- Whatever happens to the visitor, it keeps count. -/
theorem Counted.step (h : v.Counted) {a : Act} {e : Effect Visitor} (he : Runs cw id v a e) : e.state.Counted := by
  have hplan := h.pc
  cases he with
  | connect | stopped | givesUp | fails => exact ⟨h.toVisit, trivial⟩
  | @send p k attempts hpc =>
    rw [hpc] at hplan
    refine ⟨h.toVisit, ?_⟩
    cases k with
    | view => exact hplan
    | _ => trivial
  | @again k attempts hpc =>
    rw [hpc] at hplan
    refine ⟨h.toVisit, ?_⟩
    cases k with
    | view => exact hplan
    | _ => trivial
  | @choose p hpc =>
    simp only [Effect.goOn]
    split_ifs with hp
    · exact counted_viewLoop h.toVisit
    · exact ⟨h.toVisit, Bool.eq_false_iff.2 hp⟩
  | ends | interrupted => split_ifs <;> exact ⟨h.toVisit, trivial⟩
  | recv hpc => exact h.afterCall hpc _
  | flagged => exact ⟨h.toVisit, hplan⟩
  | killed => exact ⟨h.toVisit, trivial⟩

end Visitor

end Gallery
