/-
  `read_clients_from_file` of the hotel (IDZ4/mutexes): the clients that are read from a file in
  the format of the manual.
-/
import OsCourse.Lib.Istream
import OsCourse.Lib.While
import OsCourse.Hotel.Clients

namespace Hotel

open While

/-! ## The format -/

/-- `id checkin duration` -/
def Client.text (c : Client) : Text :=
  Text.fmtInt c.id ++ ' ' :: (Text.fmtInt c.checkin ++ ' ' :: Text.fmtInt c.during)

/-- The numbers of a client are values of type `int`. -/
structure Client.Ints (c : Client) : Prop where
  id : Istream.intMin ≤ c.id ∧ c.id ≤ Istream.intMax
  checkin : Istream.intMin ≤ c.checkin ∧ c.checkin ≤ Istream.intMax
  during : Istream.intMin ≤ c.during ∧ c.during ≤ Istream.intMax

/-- A file with one line for each client, where `newline` says whether a newline follows the
    last line. -/
def fileText (newline : Bool) : List Client → Text
  | [] => if newline then ['\n'] else []
  | [c] => c.text ++ if newline then ['\n'] else []
  | c :: cs => c.text ++ '\n' :: fileText newline cs

/-! ## The loop -/

/-- The variables of `read_clients_from_file`. -/
structure Reading where
  file : Istream
  clients : List Client

/-- One round of `while (file.good())`.  The variables `id`, `checkin` and `duration` are not
    initialised: in round `i` they have the values that are in `leftover i`. -/
def Reading.round (leftover : ℕ → Client) (s : Reading) : Reading ⊕ List Client :=
  if s.file.good then
    let old := leftover s.clients.length
    let id := s.file.readInt old.id
    let checkin := id.2.readInt old.checkin
    let during := checkin.2.readInt old.during
    .inl { file := during.2, clients := s.clients ++ [⟨id.1, checkin.1, during.1⟩] }
  else .inr s.clients

/-- `read_clients_from_file` returns these clients. -/
def ReadsClients (leftover : ℕ → Client) (t : Text) (clients : List Client) : Prop :=
  Returns (Reading.round leftover) { file := .ofText t, clients := [] } clients

variable {leftover : ℕ → Client} {acc : List Client} {t ws rest : Text} {c : Client}

/-! ## One round -/

theorem round_of_not_good {file : Istream} (h : file.good = false) :
    Reading.round leftover { file := file, clients := acc } = .inr acc :=
  if_neg (by simp [h])

/-- A line is read as it was written. -/
theorem round_line (hc : c.Ints) (hws : Text.Blank ws) (hrest : Text.NoDigit rest) :
    Reading.round leftover { file := .ofText (ws ++ (c.text ++ rest)), clients := acc } =
      .inl { file := { rest := rest, eofbit := rest.isEmpty, failbit := false }, clients := acc ++ [c] } := by
  have hblank : Text.Blank [' '] := by
    intro d hd
    obtain rfl := List.mem_singleton.1 hd
    rfl
  have htext : ws ++ (c.text ++ rest) = ws ++ (Text.fmtInt c.id ++
      ([' '] ++ (Text.fmtInt c.checkin ++ ([' '] ++ (Text.fmtInt c.during ++ rest))))) := by
    simp [Client.text]
  have hspace : ∀ u : Text, Text.NoDigit ([' '] ++ u) := by simp [Text.NoDigit]
  have hid := Istream.readInt_fmtInt hws hc.id.1 hc.id.2
    (hspace (Text.fmtInt c.checkin ++ ([' '] ++ (Text.fmtInt c.during ++ rest)))) (leftover acc.length).id
  have hcheckin := Istream.readInt_fmtInt hblank hc.checkin.1 hc.checkin.2
    (hspace (Text.fmtInt c.during ++ rest)) (leftover acc.length).checkin
  have hduring := Istream.readInt_fmtInt hblank hc.during.1 hc.during.2 hrest (leftover acc.length).during
  rw [Reading.round, if_pos (Istream.good_ofText _), htext]
  simp only [hid]
  -- there is more to read behind the first two numbers, so that the stream stays good
  have hmore : ∀ u : Text, ({ rest := [' '] ++ u, eofbit := ([' '] ++ u).isEmpty, failbit := false } : Istream) =
    .ofText ([' '] ++ u) := fun _ => rfl
  simp only [hmore, hcheckin, hduring]

/-- At the end of the file the round appends what the variables hold. -/
theorem round_blank (ht : Text.Blank t) :
    Reading.round leftover { file := .ofText t, clients := acc } =
      .inl { file := { rest := [], eofbit := true, failbit := true }, clients := acc ++ [leftover acc.length] } := by
  have hbad : ({ rest := [], eofbit := true, failbit := true } : Istream).good = false := rfl
  rw [Reading.round, if_pos (Istream.good_ofText _)]
  simp only [Istream.readInt_blank ht, Istream.readInt_of_not_good hbad]

/-! ## The whole loop -/

/-- The clients that are read: one more when the end of the file has not been seen behind the
    last number. -/
def readBack (leftover : ℕ → Client) (newline : Bool) (acc clients : List Client) : List Client :=
  acc ++ clients ++ if newline ∨ clients = [] then [leftover (acc ++ clients).length] else []

theorem returns_end (leftover : ℕ → Client) (acc : List Client) {file : Istream} (h : file.good = false) :
    Returns (Reading.round leftover) { file := file, clients := acc } acc :=
  returns_of_inr (round_of_not_good h)

theorem returns_blank (leftover : ℕ → Client) (acc : List Client) (ht : Text.Blank t) :
    Returns (Reading.round leftover) { file := .ofText t, clients := acc } (acc ++ [leftover acc.length]) :=
  (returns_iff_of_inl (round_blank ht)).2 (returns_end _ _ rfl)

theorem blank_newline : Text.Blank ['\n'] := by
  intro d hd
  obtain rfl := List.mem_singleton.1 hd
  rfl

theorem returns_fileText {clients : List Client} (hclients : ∀ c ∈ clients, c.Ints) (newline : Bool)
    (hws : Text.Blank ws) :
    Returns (Reading.round leftover) { file := .ofText (ws ++ fileText newline clients), clients := acc }
      (readBack leftover newline acc clients) := by
  induction clients generalizing ws acc with
  | nil =>
    have hblank : Text.Blank (ws ++ fileText newline []) := by
      intro d hd
      rcases List.mem_append.1 hd with hd | hd
      · exact hws d hd
      · cases newline with
        | false => cases hd
        | true => exact blank_newline d hd
    simpa [readBack] using returns_blank leftover acc hblank
  | cons c cs ih =>
    have hc : c.Ints := hclients c List.mem_cons_self
    cases cs with
    | nil =>
      cases newline with
      | false =>
        have hrest : Text.NoDigit [] := by simp [Text.NoDigit]
        refine (returns_iff_of_inl (round_line hc hws hrest)).2 ?_
        simpa [readBack] using returns_end leftover (acc ++ [c]) rfl
      | true =>
        have hrest : Text.NoDigit ['\n'] := by simp [Text.NoDigit]
        refine (returns_iff_of_inl (round_line hc hws hrest)).2 ?_
        simpa [readBack, Istream.ofText] using returns_blank leftover (acc ++ [c]) blank_newline
    | cons d cs =>
      have hrest : Text.NoDigit ('\n' :: fileText newline (d :: cs)) := by simp [Text.NoDigit]
      refine (returns_iff_of_inl (round_line hc hws hrest)).2 ?_
      have htail : Returns (Reading.round leftover)
          { file := .ofText (['\n'] ++ fileText newline (d :: cs)), clients := acc ++ [c] } _ :=
        ih (fun e he => hclients e (List.mem_cons_of_mem c he)) blank_newline
      simpa [readBack, Istream.ofText] using htail

/-- **Which clients are read from a file in the documented format.** -/
theorem readsClients_readBack {clients : List Client} (hclients : ∀ c ∈ clients, c.Ints) (leftover : ℕ → Client)
    (newline : Bool) :
    ReadsClients leftover (fileText newline clients) (readBack leftover newline [] clients) :=
  returns_fileText hclients newline (fun _ h => absurd h List.not_mem_nil : Text.Blank [])

/-- The loop ends for every file: a round that leaves the stream good has read something. -/
theorem exists_readsClients (leftover : ℕ → Client) (t : Text) :
    ∃ clients, ReadsClients leftover t clients := by
  let left (s : Reading) : ℕ := if s.file.good then s.file.rest.length + 1 else 0
  suffices h : ∃ clients, ReadsClients leftover t clients ∧ True by
    obtain ⟨clients, hret, -⟩ := h
    exact ⟨clients, hret⟩
  refine returns_of_variant (J := fun _ => True) (Q := fun _ => True) left ?_ trivial
  rintro ⟨file, acc⟩ -
  cases hg : file.good with
  | false => exact .inl ⟨acc, round_of_not_good hg, trivial⟩
  | true =>
    refine .inr ⟨_, by rw [Reading.round, if_pos hg], trivial, ?_⟩
    simp only [left, hg, if_true]
    split_ifs with hgood
    · obtain ⟨h2, hlt3⟩ := Istream.readInt_good hgood
      obtain ⟨h1, hlt2⟩ := Istream.readInt_good h2
      obtain ⟨-, hlt1⟩ := Istream.readInt_good h1
      omega
    · omega

/-- **When exactly the clients of the file are read.** -/
theorem readsClients_iff {clients : List Client} (hclients : ∀ c ∈ clients, c.Ints) (leftover : ℕ → Client)
    (newline : Bool) :
    ReadsClients leftover (fileText newline clients) clients ↔ clients ≠ [] ∧ newline = false := by
  have hread := readsClients_readBack hclients leftover newline
  constructor
  · intro h
    have hsame := hread.unique h
    by_contra hno
    have hmore : newline = true ∨ clients = [] := by
      by_cases hnil : clients = []
      · exact .inr hnil
      · exact .inl (Bool.not_eq_false _ ▸ fun hfalse => hno ⟨hnil, hfalse⟩)
    have hlen := congrArg List.length hsame
    simp [readBack, hmore] at hlen
  · rintro ⟨hne, rfl⟩
    simpa [readBack, hne] using hread

/-- The clients of a short file. -/
def twoClients : List Client := [⟨0, 1, 2⟩, ⟨1, 3, 1⟩]

theorem readsClients_iff_twoClients :
    fileText false twoClients = "0 1 2\n1 3 1".toList ∧
      ReadsClients (fun _ => ⟨15626636, 5, 1⟩) (fileText false twoClients) twoClients := by
  refine ⟨by decide, (readsClients_iff ?_ _ false).2 ⟨by decide, rfl⟩⟩
  intro c hc
  simp only [twoClients, List.mem_cons, List.not_mem_nil, or_false] at hc
  rcases hc with rfl | rfl
  all_goals exact ⟨by decide, by decide, by decide⟩

/-- The file of the manual, with the newline at its end: a second client is read. -/
theorem not_readsClients : ¬ ∀ (leftover : ℕ → Client) (newline : Bool) (clients : List Client),
    (∀ c ∈ clients, c.Ints) → ReadsClients leftover (fileText newline clients) clients := by
  intro hall
  have hints : ∀ c ∈ ([⟨0, 1, 2⟩] : List Client), c.Ints := by
    intro c hc
    obtain rfl := List.mem_singleton.1 hc
    exact ⟨by decide, by decide, by decide⟩
  have hread := readsClients_readBack hints (fun _ => ⟨15626636, 5, 1⟩) true
  have hsame := hread.unique (hall _ true _ hints)
  revert hsame
  decide

end Hotel
