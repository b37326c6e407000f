/-
  `main` of p1 (idz os 1/9): the loop that receives the answer from the second channel
  and writes it to the output file.
-/
import OsCourse.Lib.Memory

namespace Numbers.V9

open Text

/-- The buffer of the loop, and what has been written to the file. -/
structure Receiver where
  writebuf : Mem
  file : Text

/-- The body of the loop for a `read` that returns `piece`, and whether it leaves the loop.
    Behind the piece the buffer keeps what it held. -/
def receivePiece (s : Receiver) (piece : Text) : Receiver × Bool :=
  let bytesRead := piece.length
  let writebuf := s.writebuf.store 0 piece
  match writebuf.memchr nul 0 bytesRead with
  | some endlinePos => ({ writebuf := writebuf, file := s.file ++ writebuf.load 0 endlinePos }, true)
  | none => ({ writebuf := writebuf, file := s.file ++ writebuf.load 0 bytesRead }, false)

/-- The loop, until `read` returns 0. -/
def receiveLoop : Receiver → List Text → Receiver
  | s, [] => s
  | s, piece :: pieces =>
    if piece.length > 0 then
      let r := receivePiece s piece
      if r.2 then r.1 else receiveLoop r.1 pieces
    else s

/-- The output file, when `writebuf` holds `leftover` before. -/
def outputFile (leftover : Mem) (pieces : List Text) : Text :=
  (receiveLoop { writebuf := leftover, file := [] } pieces).file

variable {s : Receiver} {piece : Text} {pieces : List Text}

/-- A piece is written up to its first NUL, and one with a NUL is the last. -/
theorem receivePiece_eq (s : Receiver) (piece : Text) : receivePiece s piece =
    ({ writebuf := s.writebuf.store 0 piece, file := s.file ++ cstr piece }, decide (nul ∈ piece)) := by
  have hload : (s.writebuf.store 0 piece).load 0 piece.length = piece := Mem.load_store s.writebuf 0 piece
  rw [receivePiece]
  split
  · next endlinePos hpos =>
    have hstring := Mem.stringAt_of_memchr hpos
    obtain ⟨-, hlt, -, -⟩ := Mem.memchr_eq_some_iff.1 hpos
    have hmem : nul ∈ piece := by
      by_contra hno
      rw [Mem.memchr_eq_none_iff.2 (by rwa [hload])] at hpos
      cases hpos
    have hcstr : cstr piece = (s.writebuf.store 0 piece).load 0 endlinePos := by
      conv_lhs => rw [← hload]
      rw [hstring.cstr_load, List.take_of_length_le (by rw [Mem.length_load]; omega), Nat.sub_zero]
    rw [hcstr, decide_eq_true hmem]
  · next hpos =>
    rw [Mem.memchr_eq_none_iff, hload] at hpos
    rw [hload, cstr_of_notMem hpos, decide_eq_false hpos]

/-- What the loop adds to the file. -/
theorem file_receiveLoop (hpieces : ∀ piece ∈ pieces, 0 < piece.length) :
    (receiveLoop s pieces).file = s.file ++ cstr pieces.flatten := by
  induction pieces generalizing s with
  | nil => exact (List.append_nil s.file).symm
  | cons piece pieces ih =>
    have hpos := hpieces piece List.mem_cons_self
    rw [receiveLoop, if_pos hpos, receivePiece_eq, List.flatten_cons]
    by_cases hnul : nul ∈ piece
    · rw [if_pos (decide_eq_true hnul), cstr_append_of_mem hnul]
    · rw [if_neg (by simpa using hnul), ih fun p hp => hpieces p (List.mem_cons_of_mem _ hp),
        cstr_append_of_notMem hnul, cstr_of_notMem hnul, List.append_assoc]

/-- **The file is the stream up to its first NUL**, whatever the buffer held before and
    however the stream is cut. -/
theorem outputFile_eq (leftover : Mem) (pieces : List Text)
    (hsize : ∀ piece ∈ pieces, 1 ≤ piece.length ∧ piece.length ≤ 128) :
    outputFile leftover pieces = cstr pieces.flatten ∧
      ∀ leftover' pieces', (∀ piece ∈ pieces', 1 ≤ piece.length ∧ piece.length ≤ 128) →
        pieces'.flatten = pieces.flatten → outputFile leftover' pieces' = outputFile leftover pieces := by
  have hfile : ∀ leftover pieces, (∀ piece ∈ pieces, 1 ≤ piece.length ∧ piece.length ≤ 128) →
      outputFile leftover pieces = cstr pieces.flatten := by
    intro leftover pieces hsize
    exact file_receiveLoop fun piece hp => (hsize piece hp).1
  refine ⟨hfile leftover pieces hsize, fun leftover' pieces' hsize' heq => ?_⟩
  rw [hfile leftover' pieces' hsize', heq, hfile leftover pieces hsize]

/-- A NUL at the end of the first piece; the second piece is not read. -/
def padded : List Text := [['o', 'k', nul], ['!']]

theorem outputFile_padded : outputFile (fun _ => '?') padded = ['o', 'k'] := by
  rw [(outputFile_eq (fun _ => '?') padded (by decide)).1]
  decide

end Numbers.V9
