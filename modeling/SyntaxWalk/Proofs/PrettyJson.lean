import SyntaxWalk.Proofs.PrintedJson

/-!
# Values over lines read back

A reader skips the line ends and the spaces that lay a value out over lines. So the laid out text of
a value without doubles is read as the value in order, like the compact one (`read_pretty`).
-/

namespace SyntaxWalk.Json

open JsonNumber (Closes)

section Layout

variable (level : Nat)

def prettyMoreItems : List Json → List Char → List Char
  | [], rest => writeLine level (']' :: rest)
  | v :: more, rest => ',' :: writePrettyItems level (v :: more) rest

def prettyMoreMembers : List (String × Json) → List Char → List Char
  | [], rest => writeLine level ('}' :: rest)
  | entry :: more, rest => ',' :: writePrettyMembers level (entry :: more) rest

theorem writePrettyItems_cons (v : Json) (more : List Json) (rest : List Char) :
    writePrettyItems level (v :: more) rest =
      writeLine (level + 1) (writePretty (level + 1) v (prettyMoreItems level more rest)) := by
  cases more <;> simp only [writePrettyItems, prettyMoreItems]

theorem writePrettyMembers_cons (name : String) (v : Json) (more : List (String × Json))
    (rest : List Char) :
    writePrettyMembers level ((name, v) :: more) rest =
      writeLine (level + 1) (writeString name (':' :: ' ' ::
        writePretty (level + 1) v (prettyMoreMembers level more rest))) := by
  cases more <;> simp only [writePrettyMembers, prettyMoreMembers]

theorem closes_prettyMoreItems (items : List Json) (rest : List Char) :
    Closes (prettyMoreItems level items rest) := by
  cases items <;> simp [Closes, prettyMoreItems, writeLine]

theorem closes_prettyMoreMembers (entries : List (String × Json)) (rest : List Char) :
    Closes (prettyMoreMembers level entries rest) := by
  cases entries <;> simp [Closes, prettyMoreMembers, writeLine]

/-- Values without parts, and empty ones, stand on the line they are on. -/
theorem writePretty_eq_write {v : Json} (harray : ∀ w more, v ≠ .array (w :: more))
    (hobject : ∀ entry more, v ≠ .object ⟨entry :: more⟩) (rest : List Char) :
    writePretty level v rest = v.write rest := by
  cases v with
  | array items =>
    cases items with
    | nil => rfl
    | cons w more => exact absurd rfl (harray w more)
  | object members =>
    obtain ⟨_ | ⟨entry, more⟩⟩ := members
    · rfl
    · exact absurd rfl (hobject entry more)
  | _ => simp only [writePretty]

theorem writePretty_begins {v : Json} (h : v.Integral) (rest : List Char) :
    ∃ c more, writePretty level v rest = c :: more ∧ Begins c := by
  by_cases harray : ∃ w more, v = .array (w :: more)
  · obtain ⟨w, more, rfl⟩ := harray
    exact ⟨'[', _, rfl, by simp [Begins, isBlank]⟩
  · by_cases hobject : ∃ entry more, v = .object ⟨entry :: more⟩
    · obtain ⟨entry, more, rfl⟩ := hobject
      exact ⟨'{', _, rfl, by simp [Begins, isBlank]⟩
    · simp only [not_exists] at harray hobject
      rw [writePretty_eq_write level harray hobject]
      exact write_begins h rest

end Layout

section Front

theorem fronts_writeLine (level : Nat) : Fronts (writeLine level) :=
  ⟨'\n' :: List.replicate (2 * level) ' ', fun _ => rfl⟩

theorem length_lt_writeLine (level : Nat) (rest : List Char) :
    rest.length < (writeLine level rest).length := by
  simp only [writeLine, List.cons_append, List.length_cons, List.length_append]
  omega

theorem length_lt_prettyMember (level : Nat) (name : String) (text : List Char) :
    text.length < (writeLine level (writeString name (':' :: ' ' :: text))).length := by
  have hline := length_lt_writeLine level (writeString name (':' :: ' ' :: text))
  have hname := length_lt_writeString name (':' :: ' ' :: text)
  simp only [List.length_cons] at hname
  omega

theorem fronts_writePrettyItems {items : List Json}
    (h : ∀ v ∈ items, ∀ level, Fronts (writePretty level v)) (level : Nat) :
    Fronts (writePrettyItems level items) := by
  induction items with
  | nil => exact (fronts_writeLine level).comp (fronts_id.cons ']')
  | cons v more ih =>
    obtain ⟨hv, hmore⟩ := List.forall_mem_cons.1 h
    have hothers : Fronts (prettyMoreItems level more) := by
      cases more with
      | nil => exact ih hmore
      | cons w more => exact (ih hmore).cons ','
    have hput := (fronts_writeLine (level + 1)).comp ((hv (level + 1)).comp hothers)
    rwa [← funext (writePrettyItems_cons level v more)] at hput

theorem fronts_writePrettyMembers {entries : List (String × Json)}
    (h : ∀ entry ∈ entries, ∀ level, Fronts (writePretty level entry.2)) (level : Nat) :
    Fronts (writePrettyMembers level entries) := by
  induction entries with
  | nil => exact (fronts_writeLine level).comp (fronts_id.cons '}')
  | cons entry more ih =>
    obtain ⟨name, v⟩ := entry
    obtain ⟨hv, hmore⟩ := List.forall_mem_cons.1 h
    have hothers : Fronts (prettyMoreMembers level more) := by
      cases more with
      | nil => exact ih hmore
      | cons other more => exact (ih hmore).cons ','
    have hvalue := (((hv (level + 1)).comp hothers).cons ' ').cons ':'
    have hput := (fronts_writeLine (level + 1)).comp ((fronts_writeString name).comp hvalue)
    rwa [← funext (writePrettyMembers_cons level name v more)] at hput

theorem fronts_writePretty (v : Json) (level : Nat) : Fronts (writePretty level v) := by
  induction v using Json.induct generalizing level with
  | null => exact fronts_write .null
  | bool b => exact fronts_write (.bool b)
  | number n => exact fronts_write (.number n)
  | string s => exact fronts_write (.string s)
  | array items ih =>
    cases items with
    | nil => exact ⟨['[', ']'], fun _ => rfl⟩
    | cons v more => exact (fronts_writePrettyItems ih level).cons '['
  | object members ih =>
    obtain ⟨_ | ⟨entry, more⟩⟩ := members
    · exact ⟨['{', '}'], fun _ => rfl⟩
    · exact (fronts_writePrettyMembers ih level).cons '{'

end Front

section Blanks

theorem skipBlanks_writeLine (level : Nat) (rest : List Char) :
    skipBlanks (writeLine level rest) = skipBlanks rest := by
  have hspaces : ∀ c ∈ List.replicate (2 * level) ' ', isBlank c := by
    intro c hc
    rw [List.eq_of_mem_replicate hc]
    rfl
  have hskip : skipBlanks (writeLine level rest) =
      skipBlanks (List.replicate (2 * level) ' ' ++ rest) := rfl
  rw [hskip, skipBlanks, List.dropWhile_append_of_pos hspaces, skipBlanks]

variable {text text' : List Char} (h : skipBlanks text = skipBlanks text') (depth : Option Nat)
  (fuel : Nat) (first : Bool)

include h

theorem readValue_blanks : readValue depth fuel text = readValue depth fuel text' := by
  cases fuel with
  | zero => rfl
  | succ fuel => rw [readValue, readValue, h]

theorem readItems_blanks : readItems depth fuel first text = readItems depth fuel first text' := by
  cases fuel with
  | zero => rfl
  | succ fuel => rw [readItems, readItems, h]

theorem readMembers_blanks :
    readMembers depth fuel first text = readMembers depth fuel first text' := by
  cases fuel with
  | zero => rfl
  | succ fuel => rw [readMembers, readMembers, h]

end Blanks

theorem readMembers_next (depth : Option Nat) (fuel : Nat) (rest : List Char) :
    readMembers depth (fuel + 1) false (',' :: rest) =
      readMember depth fuel (skipBlanks rest) := by
  rw [readMembers, skipBlanks_cons rfl]
  rfl

theorem skipBlanks_writeString (s : String) (rest : List Char) :
    skipBlanks (writeString s rest) = writeString s rest := skipBlanks_cons rfl _

def PrettyReread (v : Json) : Prop :=
  ∀ level depth fuel rest, Closes rest → 3 * (writePretty level v rest).length ≤ fuel →
    readValue depth fuel (writePretty level v rest) = within depth v.nesting v.inOrder rest

section Lists

variable {level fuel : Nat} {depth : Option Nat} {rest : List Char}

theorem readItems_prettyMore {items : List Json} (h : ∀ v ∈ items, v.PrettyReread)
    (hfuel : 3 * (prettyMoreItems level items rest).length ≤ fuel) :
    readItems depth fuel false (prettyMoreItems level items rest) =
      within depth (nestingItems items) (inOrderItems items) rest := by
  induction items generalizing fuel with
  | nil =>
    have hline := length_lt_writeLine level (']' :: rest)
    rw [prettyMoreItems] at hfuel ⊢
    obtain _ | fuel := fuel
    · omega
    · rw [readItems_blanks (skipBlanks_writeLine level _), readItems_close, nestingItems,
        within_zero, inOrderItems]
  | cons v more ih =>
    obtain ⟨hv, hmore⟩ := List.forall_mem_cons.1 h
    have hlength := (fronts_writePretty v (level + 1)).length_le (prettyMoreItems level more rest)
    have hline := length_lt_writeLine (level + 1)
      (writePretty (level + 1) v (prettyMoreItems level more rest))
    rw [prettyMoreItems, writePrettyItems_cons] at hfuel ⊢
    rw [List.length_cons] at hfuel
    obtain _ | fuel := fuel
    · omega
    · have hothers : readItems depth fuel false (prettyMoreItems level more rest) = _ :=
        ih hmore (by omega)
      rw [readItems_comma, readValue_blanks (skipBlanks_writeLine _ _),
        hv _ depth fuel _ (closes_prettyMoreItems level more rest) (by omega),
        within_followed _ hothers]
      rfl

theorem readItems_pretty {v : Json} {more : List Json}
    (h : ∀ w ∈ v :: more, w.Integral ∧ w.PrettyReread)
    (hfuel : 3 * (writePrettyItems level (v :: more) rest).length ≤ fuel) :
    readItems depth fuel true (writePrettyItems level (v :: more) rest) =
      within depth (nestingItems (v :: more)) (inOrderItems (v :: more)) rest := by
  obtain ⟨⟨hintegral, hv⟩, hmore⟩ := List.forall_mem_cons.1 h
  have hlength := (fronts_writePretty v (level + 1)).length_le (prettyMoreItems level more rest)
  have hline := length_lt_writeLine (level + 1)
    (writePretty (level + 1) v (prettyMoreItems level more rest))
  rw [writePrettyItems_cons] at hfuel ⊢
  obtain _ | fuel := fuel
  · omega
  have hread := hv (level + 1) depth fuel _ (closes_prettyMoreItems level more rest) (by omega)
  have hothers : readItems depth fuel false (prettyMoreItems level more rest) = _ :=
    readItems_prettyMore (fun w hw => (hmore w hw).2) (by omega)
  rw [readItems_blanks (skipBlanks_writeLine _ _)]
  obtain ⟨c, text, htext, hc⟩ :=
    writePretty_begins (level + 1) hintegral (prettyMoreItems level more rest)
  rw [htext] at hread ⊢
  rw [readItems_begins _ _ _ hc, hread, within_followed _ hothers]
  rfl

theorem readMember_pretty (name : String) {v : Json} {more : List (String × Json)}
    (hv : v.PrettyReread)
    (hmore : readMembers depth fuel false (prettyMoreMembers level more rest) =
      within depth (nestingMembers more) (inOrderMembers more) rest)
    (hfuel : 3 * (writePretty (level + 1) v (prettyMoreMembers level more rest)).length ≤ fuel) :
    readMember depth (fuel + 1) (writeString name (':' :: ' ' ::
        writePretty (level + 1) v (prettyMoreMembers level more rest))) =
      within depth (nestingMembers ((name, v) :: more)) (inOrderMembers ((name, v) :: more))
        rest := by
  have hspace : ∀ text, skipBlanks (' ' :: text) = skipBlanks text := fun _ => rfl
  rw [readMember_quote, readValue_blanks (hspace _),
    hv _ depth fuel _ (closes_prettyMoreMembers level more rest) hfuel, within_followed _ hmore]
  rfl

theorem readMembers_prettyMore {entries : List (String × Json)}
    (h : ∀ entry ∈ entries, entry.2.PrettyReread)
    (hfuel : 3 * (prettyMoreMembers level entries rest).length ≤ fuel) :
    readMembers depth fuel false (prettyMoreMembers level entries rest) =
      within depth (nestingMembers entries) (inOrderMembers entries) rest := by
  induction entries generalizing fuel with
  | nil =>
    have hline := length_lt_writeLine level ('}' :: rest)
    rw [prettyMoreMembers] at hfuel ⊢
    obtain _ | fuel := fuel
    · omega
    · rw [readMembers_blanks (skipBlanks_writeLine level _), readMembers_close, nestingMembers,
        within_zero, inOrderMembers]
  | cons entry more ih =>
    obtain ⟨name, v⟩ := entry
    obtain ⟨hv, hmore⟩ := List.forall_mem_cons.1 h
    have hv : v.PrettyReread := hv
    have hlength := (fronts_writePretty v (level + 1)).length_le (prettyMoreMembers level more rest)
    have hmember := length_lt_prettyMember (level + 1) name
      (writePretty (level + 1) v (prettyMoreMembers level more rest))
    rw [prettyMoreMembers, writePrettyMembers_cons] at hfuel ⊢
    rw [List.length_cons] at hfuel
    obtain _ | _ | fuel := fuel
    · omega
    · omega
    · have hothers : readMembers depth fuel false (prettyMoreMembers level more rest) = _ :=
        ih hmore (by omega)
      rw [readMembers_next, skipBlanks_writeLine, skipBlanks_writeString,
        readMember_pretty name hv hothers (by omega)]

theorem readMembers_pretty {name : String} {v : Json} {more : List (String × Json)}
    (h : ∀ entry ∈ (name, v) :: more, entry.2.PrettyReread)
    (hfuel : 3 * (writePrettyMembers level ((name, v) :: more) rest).length ≤ fuel) :
    readMembers depth fuel true (writePrettyMembers level ((name, v) :: more) rest) =
      within depth (nestingMembers ((name, v) :: more)) (inOrderMembers ((name, v) :: more))
        rest := by
  obtain ⟨hv, hmore⟩ := List.forall_mem_cons.1 h
  have hv : v.PrettyReread := hv
  have hlength := (fronts_writePretty v (level + 1)).length_le (prettyMoreMembers level more rest)
  have hmember := length_lt_prettyMember (level + 1) name
    (writePretty (level + 1) v (prettyMoreMembers level more rest))
  rw [writePrettyMembers_cons] at hfuel ⊢
  obtain _ | _ | fuel := fuel
  · omega
  · omega
  have hothers : readMembers depth fuel false (prettyMoreMembers level more rest) = _ :=
    readMembers_prettyMore hmore (by omega)
  have hread := readMember_pretty name hv hothers (by omega)
  rw [readMembers_blanks (skipBlanks_writeLine _ _)]
  rw [writeString] at hread ⊢
  rw [readMembers_quote, hread]

end Lists

theorem readValue_writePretty {v : Json} (h : v.Integral) : v.PrettyReread := by
  -- A value that takes one line has its compact text, for which this is known.
  have hline : ∀ v : Json, v.Integral → (∀ w more, v ≠ .array (w :: more)) →
      (∀ entry more, v ≠ .object ⟨entry :: more⟩) → v.PrettyReread := by
    intro v hv harray hobject level depth fuel rest hrest hfuel
    rw [writePretty_eq_write level harray hobject] at hfuel ⊢
    exact readValue_write hv depth fuel rest hrest hfuel
  induction h with
  | @array items hitems ih =>
    cases items with
    | nil => exact hline _ (.array hitems) (by simp) (by simp)
    | cons v more =>
      intro level depth fuel rest _ hfuel
      rw [writePretty, List.length_cons] at hfuel
      obtain _ | fuel := fuel
      · omega
      · have hread : readItems (depth.map (· - 1)) fuel true
            (writePrettyItems level (v :: more) rest) = _ :=
          readItems_pretty (fun w hw => ⟨hitems w hw, ih w hw⟩) (by omega)
        rw [writePretty, readValue_bracket, nesting, ← within_succ, hread, within_map]
        rfl
  | @object members hmembers ih =>
    obtain ⟨_ | ⟨⟨name, v⟩, more⟩⟩ := members
    · exact hline _ (.object hmembers) (by simp) (by simp)
    · intro level depth fuel rest _ hfuel
      rw [writePretty, List.length_cons] at hfuel
      obtain _ | fuel := fuel
      · omega
      · have hread : readMembers (depth.map (· - 1)) fuel true
            (writePrettyMembers level ((name, v) :: more) rest) = _ :=
          readMembers_pretty ih (by omega)
        rw [writePretty, readValue_brace, nesting, ← within_succ, hread, within_map]
        rfl
  | null => exact hline _ .null (by simp) (by simp)
  | bool b => exact hline _ (.bool b) (by simp) (by simp)
  | number hn => exact hline _ (.number hn) (by simp) (by simp)
  | string s => exact hline _ (.string s) (by simp) (by simp)

theorem read_pretty {v : Json} (h : v.Integral) : read (v.pretty ++ "\n") = .ok v.inOrder := by
  have htext : (v.pretty ++ "\n").toList = writePretty 0 v ['\n'] := by
    obtain ⟨text, htext⟩ := fronts_writePretty v 0
    rw [String.toList_append, pretty, String.toList_ofList, htext, htext, List.append_nil]
    rfl
  have hstart : readStart none (v.pretty ++ "\n") = .ok (v.inOrder, ['\n']) := by
    rw [readStart, htext, readValue_writePretty h]
    · rfl
    · simp [Closes]
    · rw [readFuel]
      omega
  rw [read, hstart]
  rfl

end SyntaxWalk.Json
