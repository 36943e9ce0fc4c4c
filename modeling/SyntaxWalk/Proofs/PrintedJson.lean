import SyntaxWalk.Proofs.CanonicalTree
import SyntaxWalk.Proofs.OrderedEntries
import SyntaxWalk.Proofs.PrintedTokens

/-!
# Printed values read back

A reader that is given the printed text of a value returns that value with the members of every
object in the order of their names, if no number in it is a double. It does so at any nesting, or up
to its limit and then refuses the text (`readValue_write`).
-/

namespace SyntaxWalk.Json

open JsonNumber (Closes Reading)

mutual

def nesting : Json → Nat
  | .array items => 1 + nestingItems items
  | .object ⟨entries⟩ => 1 + nestingMembers entries
  | _ => 0

def nestingItems : List Json → Nat
  | [] => 0
  | v :: more => max v.nesting (nestingItems more)

def nestingMembers : List (String × Json) → Nat
  | [] => 0
  | (_, v) :: more => max v.nesting (nestingMembers more)

end

mutual

def inOrder : Json → Json
  | .array items => .array (inOrderItems items)
  | .object ⟨entries⟩ => ofEntries (inOrderMembers entries)
  | v => v

def inOrderItems : List Json → List Json
  | [] => []
  | v :: more => v.inOrder :: inOrderItems more

def inOrderMembers : List (String × Json) → List (String × Json)
  | [] => []
  | (name, v) :: more => (name, v.inOrder) :: inOrderMembers more

end

/-- No number in the value is a double, and each lies between `-2^63` and `2^64 - 1`. -/
inductive Integral : Json → Prop
  | null : Integral .null
  | bool (b : Bool) : Integral (.bool b)
  | number {n : Int} (h : -0x8000000000000000 ≤ n ∧ n ≤ 0xffffffffffffffff) :
      Integral (.number (.int n))
  | string (s : String) : Integral (.string s)
  | array {items : List Json} (hitems : ∀ v ∈ items, v.Integral) : Integral (.array items)
  | object {members : NameMap Json} (hmembers : ∀ entry ∈ members.entries, entry.2.Integral) :
      Integral (.object members)

section Order

theorem inOrderItems_eq {items : List Json} (h : ∀ v ∈ items, v.inOrder = v) :
    inOrderItems items = items := by
  induction items with
  | nil => rfl
  | cons v more ih =>
    obtain ⟨hv, hmore⟩ := List.forall_mem_cons.1 h
    rw [inOrderItems, hv, ih hmore]

theorem inOrderMembers_eq {entries : List (String × Json)}
    (h : ∀ entry ∈ entries, entry.2.inOrder = entry.2) : inOrderMembers entries = entries := by
  induction entries with
  | nil => rfl
  | cons entry more ih =>
    obtain ⟨name, v⟩ := entry
    obtain ⟨hv, hmore⟩ := List.forall_mem_cons.1 h
    have hv : v.inOrder = v := hv
    rw [inOrderMembers, hv, ih hmore]

theorem Ordered.inOrder_eq {v : Json} (h : v.Ordered) : v.inOrder = v := by
  induction h with
  | null | bool _ | number _ | string _ => rfl
  | array _ ih => rw [inOrder, inOrderItems_eq ih]
  | @object members names _ ih =>
    obtain ⟨entries⟩ := members
    rw [inOrder, inOrderMembers_eq ih, Json.ofEntries, NameMap.ofList_of_sorted names]

end Order

section Text

def writeMoreItems : List Json → List Char → List Char
  | [], rest => ']' :: rest
  | v :: more, rest => ',' :: writeItems (v :: more) rest

def writeMoreMembers : List (String × Json) → List Char → List Char
  | [], rest => '}' :: rest
  | entry :: more, rest => ',' :: writeMembers (entry :: more) rest

theorem writeItems_cons (v : Json) (more : List Json) (rest : List Char) :
    writeItems (v :: more) rest = v.write (writeMoreItems more rest) := by
  cases more <;> simp only [writeItems, writeMoreItems]

theorem writeMembers_cons (name : String) (v : Json) (more : List (String × Json))
    (rest : List Char) :
    writeMembers ((name, v) :: more) rest =
      writeString name (':' :: v.write (writeMoreMembers more rest)) := by
  cases more <;> simp only [writeMembers, writeMoreMembers]

theorem closes_moreItems (items : List Json) (rest : List Char) :
    Closes (writeMoreItems items rest) := by
  cases items <;> simp [Closes, writeMoreItems]

theorem closes_moreMembers (entries : List (String × Json)) (rest : List Char) :
    Closes (writeMoreMembers entries rest) := by
  cases entries <;> simp [Closes, writeMoreMembers]

def Fronts (put : List Char → List Char) : Prop := ∃ text, ∀ rest, put rest = text ++ rest

theorem Fronts.cons {put : List Char → List Char} (h : Fronts put) (c : Char) :
    Fronts fun rest => c :: put rest := by
  obtain ⟨text, htext⟩ := h
  exact ⟨c :: text, fun rest => congrArg (c :: ·) (htext rest)⟩

theorem Fronts.comp {first second : List Char → List Char} (h : Fronts first)
    (h' : Fronts second) : Fronts fun rest => first (second rest) := by
  obtain ⟨text, htext⟩ := h
  obtain ⟨text', htext'⟩ := h'
  refine ⟨text ++ text', fun rest => ?_⟩
  simp only [htext, htext', List.append_assoc]

theorem Fronts.length_le {put : List Char → List Char} (h : Fronts put) (rest : List Char) :
    rest.length ≤ (put rest).length := by
  obtain ⟨text, htext⟩ := h
  rw [htext, List.length_append]
  omega

theorem fronts_id : Fronts fun rest => rest := ⟨[], fun _ => rfl⟩

theorem fronts_writeChars (cs : List Char) : Fronts (writeChars cs) := by
  refine ⟨writeChars cs [], fun rest => ?_⟩
  rw [writeChars_append, List.nil_append]

theorem fronts_writeString (s : String) : Fronts (writeString s) :=
  ((fronts_writeChars s.toList).comp (fronts_id.cons '"')).cons '"'

theorem length_lt_writeString (s : String) (rest : List Char) :
    rest.length < (writeString s rest).length := by
  have h := (fronts_writeChars s.toList).length_le ('"' :: rest)
  simp only [writeString, List.length_cons] at h ⊢
  omega

theorem fronts_moreItems {items : List Json} (h : ∀ v ∈ items, Fronts v.write) :
    Fronts (writeMoreItems items) := by
  induction items with
  | nil => exact fronts_id.cons ']'
  | cons v more ih =>
    obtain ⟨hv, hmore⟩ := List.forall_mem_cons.1 h
    have hput := hv.comp (ih hmore)
    rw [← funext (writeItems_cons v more)] at hput
    exact hput.cons ','

theorem fronts_moreMembers {entries : List (String × Json)}
    (h : ∀ entry ∈ entries, Fronts entry.2.write) : Fronts (writeMoreMembers entries) := by
  induction entries with
  | nil => exact fronts_id.cons '}'
  | cons entry more ih =>
    obtain ⟨name, v⟩ := entry
    obtain ⟨hv, hmore⟩ := List.forall_mem_cons.1 h
    have hput := (fronts_writeString name).comp ((hv.comp (ih hmore)).cons ':')
    rw [← funext (writeMembers_cons name v more)] at hput
    exact hput.cons ','

theorem fronts_write (v : Json) : Fronts v.write := by
  induction v using Json.induct with
  | null => exact ⟨['n', 'u', 'l', 'l'], fun _ => rfl⟩
  | bool b =>
    cases b
    · exact ⟨['f', 'a', 'l', 's', 'e'], fun _ => rfl⟩
    · exact ⟨['t', 'r', 'u', 'e'], fun _ => rfl⟩
  | number n => exact ⟨n.text, fun _ => rfl⟩
  | string s => exact fronts_writeString s
  | array items ih =>
    cases items with
    | nil => exact ⟨['[', ']'], fun _ => rfl⟩
    | cons v more =>
      obtain ⟨hv, hmore⟩ := List.forall_mem_cons.1 ih
      have hput := hv.comp (fronts_moreItems hmore)
      rw [← funext (writeItems_cons v more)] at hput
      exact hput.cons '['
  | object members ih =>
    obtain ⟨_ | ⟨⟨name, v⟩, more⟩⟩ := members
    · exact ⟨['{', '}'], fun _ => rfl⟩
    · obtain ⟨hv, hmore⟩ := List.forall_mem_cons.1 ih
      have hput := (fronts_writeString name).comp
        ((hv.comp (fronts_moreMembers hmore)).cons ':')
      rw [← funext (writeMembers_cons name v more)] at hput
      exact hput.cons '{'

theorem length_lt_writeMembers (name : String) (v : Json) (more : List (String × Json))
    (rest : List Char) :
    (writeMoreMembers more rest).length < (writeMembers ((name, v) :: more) rest).length := by
  have hwrite := (fronts_write v).length_le (writeMoreMembers more rest)
  have hname := length_lt_writeString name (':' :: v.write (writeMoreMembers more rest))
  rw [List.length_cons] at hname
  rw [writeMembers_cons]
  omega

def Begins (c : Char) : Prop := isBlank c = false ∧ c ≠ ']' ∧ c ≠ ','

theorem begins_of_isDigit {c : Char} (h : c.isDigit) : Begins c := by
  have hne : ∀ d : Char, d.isDigit = false → c ≠ d := by
    rintro d hd rfl
    rw [h] at hd
    cases hd
  refine ⟨?_, hne _ rfl, hne _ rfl⟩
  simp [isBlank, hne]

theorem intText_begins (n : Int) (rest : List Char) :
    ∃ c more, Decimal.intText n ++ rest = c :: more ∧ (c = '-' ∨ c.isDigit) := by
  obtain ⟨c, more, hdigits, hc⟩ := JsonNumber.digitsOf_head n.natAbs
  rw [Decimal.intText]
  split
  · exact ⟨_, _, rfl, .inl rfl⟩
  · exact ⟨c, more ++ rest, by rw [hdigits]; rfl, .inr hc⟩

theorem write_begins {v : Json} (h : v.Integral) (rest : List Char) :
    ∃ c more, v.write rest = c :: more ∧ Begins c := by
  have hsign : ∀ c ∈ ['n', 't', 'f', '"', '[', '{', '-'], Begins c := by
    simp [Begins, isBlank]
  cases h with
  | null => exact ⟨_, _, rfl, hsign _ (by simp)⟩
  | bool b => cases b <;> exact ⟨_, _, rfl, hsign _ (by simp)⟩
  | @number n _ =>
    obtain ⟨c, more, htext, hc⟩ := intText_begins n rest
    refine ⟨c, more, htext, ?_⟩
    rcases hc with rfl | hc
    · exact hsign _ (by simp)
    · exact begins_of_isDigit hc
  | string s => exact ⟨_, _, rfl, hsign _ (by simp)⟩
  | array _ => exact ⟨_, _, rfl, hsign _ (by simp)⟩
  | object _ => exact ⟨_, _, rfl, hsign _ (by simp)⟩

theorem skipBlanks_cons {c : Char} (h : isBlank c = false) (rest : List Char) :
    skipBlanks (c :: rest) = c :: rest := by
  simp [skipBlanks, h]

end Text

def allows : Option Nat → Nat → Bool
  | none, _ => true
  | some most, levels => levels ≤ most

/-- What a reader makes of the text of something that takes so many levels. -/
def within {α : Type} (depth : Option Nat) (levels : Nat) (a : α) (rest : List Char) : Reading α :=
  if allows depth levels then .ok (a, rest) else .error .malformed

section Within

variable {α β γ : Type} {depth : Option Nat} {rest mid : List Char}

theorem within_zero (a : α) : within depth 0 a rest = .ok (a, rest) := by
  cases depth <;> rfl

theorem within_map (levels : Nat) (a : α) (f : α → β) :
    (within depth levels a rest).map (fun (a, rest) => (f a, rest)) =
      within depth levels (f a) rest := by
  unfold within
  split <;> rfl

theorem within_succ (levels : Nat) (a : α) :
    (if depth = some 0 then .error .malformed else within (depth.map (· - 1)) levels a rest) =
      within depth (1 + levels) a rest := by
  rcases depth with _ | _ | most
  · rfl
  · simp [within, allows]
  · have hadd : 1 + levels ≤ most + 1 ↔ levels ≤ most := by omega
    simp [within, allows, hadd]

def followed (first : Reading α) (next : List Char → Reading β) (f : α → β → γ) : Reading γ :=
  match first with
  | .error e => .error e
  | .ok (x, mid) => (next mid).map fun (y, rest) => (f x y, rest)

theorem within_followed {a b : Nat} {x : α} {y : β} {next : List Char → Reading β}
    (f : α → β → γ) (hnext : next mid = within depth b y rest) :
    followed (within depth a x mid) next f = within depth (max a b) (f x y) rest := by
  have hmax : allows depth (max a b) = (allows depth a && allows depth b) := by
    cases depth with
    | none => rfl
    | some most =>
      simp only [allows]
      rw [← Bool.decide_and]
      exact decide_eq_decide.2 Nat.max_le
  unfold followed
  by_cases ha : allows depth a
  · simp only [within, ha, if_true, hnext, hmax, Bool.true_and]
    split <;> rfl
  · simp [within, ha, hmax]

end Within

section Signs

variable (depth : Option Nat) (fuel : Nat) (rest : List Char)

theorem readValue_quote :
    readValue depth (fuel + 1) ('"' :: rest) =
      (readChars rest).map fun (cs, rest) => (.string (String.ofList cs), rest) := by
  rw [readValue, skipBlanks_cons rfl]
  rfl

theorem readValue_bracket :
    readValue depth (fuel + 1) ('[' :: rest) =
      if depth = some 0 then .error .malformed
      else (readItems (depth.map (· - 1)) fuel true rest).map fun (items, rest) =>
        (.array items, rest) := by
  rw [readValue, skipBlanks_cons rfl]
  rfl

theorem readValue_brace :
    readValue depth (fuel + 1) ('{' :: rest) =
      if depth = some 0 then .error .malformed
      else (readMembers (depth.map (· - 1)) fuel true rest).map fun (entries, rest) =>
        (ofEntries entries, rest) := by
  rw [readValue, skipBlanks_cons rfl]
  rfl

theorem readValue_sign {c : Char} (hc : c = '-' ∨ c.isDigit) :
    readValue depth (fuel + 1) (c :: rest) =
      (JsonNumber.read (c :: rest)).map fun (n, rest) => (.number n, rest) := by
  have hblank : isBlank c = false := by
    rcases hc with rfl | hc
    · rfl
    · exact (begins_of_isDigit hc).1
  have hne : ∀ d : Char, d ≠ '-' → d.isDigit = false → c ≠ d := by
    rintro d hminus hdigit rfl
    rcases hc with hc | hc
    · exact hminus hc
    · rw [hdigit] at hc
      cases hc
  rw [readValue, skipBlanks_cons hblank]
  split
  case h_7 c' rest' _ _ _ _ _ _ heq =>
    obtain ⟨rfl, rfl⟩ := List.cons.inj heq
    rw [if_pos hc]
  case h_8 heq => cases heq
  all_goals
    rename_i heq
    exact absurd (List.cons.inj heq).1 (hne _ (by decide) (by decide))

theorem readItems_close (first : Bool) :
    readItems depth (fuel + 1) first (']' :: rest) = .ok ([], rest) := by
  rw [readItems, skipBlanks_cons rfl]
  rfl

theorem readItems_comma :
    readItems depth (fuel + 1) false (',' :: rest) =
      followed (readValue depth fuel rest) (readItems depth fuel false) (· :: ·) := by
  rw [readItems, skipBlanks_cons rfl]
  simp only [Bool.false_eq_true, if_false]
  unfold followed
  cases readValue depth fuel rest <;> rfl

theorem readItems_begins {c : Char} (h : Begins c) :
    readItems depth (fuel + 1) true (c :: rest) =
      followed (readValue depth fuel (c :: rest)) (readItems depth fuel false) (· :: ·) := by
  obtain ⟨hblank, hclose, hcomma⟩ := h
  rw [readItems, skipBlanks_cons hblank]
  unfold followed
  split
  · rename_i heq
    exact absurd (List.cons.inj heq).1 hclose
  · rename_i heq
    exact absurd (List.cons.inj heq).1 hcomma
  · cases readValue depth fuel (c :: rest) <;> rfl

theorem readMembers_close (first : Bool) :
    readMembers depth (fuel + 1) first ('}' :: rest) = .ok ([], rest) := by
  rw [readMembers, skipBlanks_cons rfl]
  rfl

theorem readMembers_comma :
    readMembers depth (fuel + 1) false (',' :: '"' :: rest) =
      readMember depth fuel ('"' :: rest) := by
  rw [readMembers, skipBlanks_cons rfl]
  rfl

theorem readMembers_quote :
    readMembers depth (fuel + 1) true ('"' :: rest) = readMember depth fuel ('"' :: rest) := by
  rw [readMembers, skipBlanks_cons rfl]
  rfl

theorem readMember_quote (name : String) :
    readMember depth (fuel + 1) (writeString name (':' :: rest)) =
      followed (readValue depth fuel rest) (readMembers depth fuel false)
        (fun v entries => (name, v) :: entries) := by
  have hcolon : readColon (':' :: rest) = .ok rest := by
    rw [readColon, skipBlanks_cons rfl]
    rfl
  rw [writeString, readMember, readChars_writeChars]
  dsimp only
  rw [hcolon, String.ofList_toList]
  dsimp only
  unfold followed
  cases readValue depth fuel rest <;> rfl

end Signs

/-- The printed text of the value is read as the value in order, as far as the reader goes. -/
def Reread (v : Json) : Prop :=
  ∀ depth fuel rest, Closes rest → 3 * (v.write rest).length ≤ fuel →
    readValue depth fuel (v.write rest) = within depth v.nesting v.inOrder rest

section Lists

variable {depth : Option Nat} {fuel : Nat} {rest : List Char}

theorem readItems_more {items : List Json} (h : ∀ v ∈ items, v.Reread)
    (hfuel : 3 * (writeMoreItems items rest).length ≤ fuel) :
    readItems depth fuel false (writeMoreItems items rest) =
      within depth (nestingItems items) (inOrderItems items) rest := by
  induction items generalizing fuel with
  | nil =>
    rw [writeMoreItems, List.length_cons] at hfuel
    obtain _ | fuel := fuel
    · omega
    · rw [nestingItems, within_zero, writeMoreItems, readItems_close, inOrderItems]
  | cons v more ih =>
    obtain ⟨hv, hmore⟩ := List.forall_mem_cons.1 h
    have hlength := (fronts_write v).length_le (writeMoreItems more rest)
    rw [writeMoreItems, writeItems_cons] at hfuel ⊢
    rw [List.length_cons] at hfuel
    obtain _ | fuel := fuel
    · omega
    · have hothers : readItems depth fuel false (writeMoreItems more rest) = _ :=
        ih hmore (by omega)
      rw [readItems_comma, hv depth fuel _ (closes_moreItems more rest) (by omega),
        within_followed _ hothers]
      rfl

theorem readItems_write {items : List Json} (h : ∀ v ∈ items, v.Integral ∧ v.Reread)
    (hfuel : 3 * (writeItems items rest).length < fuel) :
    readItems depth fuel true (writeItems items rest) =
      within depth (nestingItems items) (inOrderItems items) rest := by
  obtain _ | fuel := fuel
  · omega
  cases items with
  | nil => rw [nestingItems, within_zero, writeItems, readItems_close, inOrderItems]
  | cons v more =>
    obtain ⟨⟨hintegral, hv⟩, hmore⟩ := List.forall_mem_cons.1 h
    have hlength := (fronts_write v).length_le (writeMoreItems more rest)
    rw [writeItems_cons] at hfuel ⊢
    have hread := hv depth fuel _ (closes_moreItems more rest) (by omega)
    have hothers : readItems depth fuel false (writeMoreItems more rest) = _ :=
      readItems_more (fun w hw => (hmore w hw).2) (by omega)
    obtain ⟨c, text, htext, hc⟩ := write_begins hintegral (writeMoreItems more rest)
    rw [htext] at hread ⊢
    rw [readItems_begins _ _ _ hc, hread, within_followed _ hothers]
    rfl

theorem readMember_write {name : String} {v : Json} {more : List (String × Json)}
    (hv : v.Reread)
    (hmore : readMembers depth fuel false (writeMoreMembers more rest) =
      within depth (nestingMembers more) (inOrderMembers more) rest)
    (hfuel : 3 * (writeMembers ((name, v) :: more) rest).length ≤ fuel) :
    readMember depth (fuel + 1) (writeMembers ((name, v) :: more) rest) =
      within depth (nestingMembers ((name, v) :: more)) (inOrderMembers ((name, v) :: more))
        rest := by
  rw [writeMembers_cons] at hfuel ⊢
  have hlength := length_lt_writeString name (':' :: v.write (writeMoreMembers more rest))
  rw [List.length_cons] at hlength
  rw [readMember_quote, hv depth fuel _ (closes_moreMembers more rest) (by omega),
    within_followed _ hmore]
  rfl

theorem readMembers_more {entries : List (String × Json)} (h : ∀ entry ∈ entries, entry.2.Reread)
    (hfuel : 3 * (writeMoreMembers entries rest).length ≤ fuel) :
    readMembers depth fuel false (writeMoreMembers entries rest) =
      within depth (nestingMembers entries) (inOrderMembers entries) rest := by
  induction entries generalizing fuel with
  | nil =>
    rw [writeMoreMembers, List.length_cons] at hfuel
    obtain _ | fuel := fuel
    · omega
    · rw [nestingMembers, within_zero, writeMoreMembers, readMembers_close, inOrderMembers]
  | cons entry more ih =>
    obtain ⟨name, v⟩ := entry
    obtain ⟨hv, hmore⟩ := List.forall_mem_cons.1 h
    have hv : v.Reread := hv
    have hlength := length_lt_writeMembers name v more rest
    rw [writeMoreMembers] at hfuel ⊢
    rw [List.length_cons] at hfuel
    obtain _ | _ | fuel := fuel
    · omega
    · omega
    · have hothers : readMembers depth fuel false (writeMoreMembers more rest) = _ :=
        ih hmore (by omega)
      have hread : readMember depth (fuel + 1) (writeMembers ((name, v) :: more) rest) = _ :=
        readMember_write hv hothers (by omega)
      rw [writeMembers_cons, writeString] at hread ⊢
      rw [readMembers_comma, hread]

theorem readMembers_write {entries : List (String × Json)}
    (h : ∀ entry ∈ entries, entry.2.Reread)
    (hfuel : 3 * (writeMembers entries rest).length + 1 < fuel) :
    readMembers depth fuel true (writeMembers entries rest) =
      within depth (nestingMembers entries) (inOrderMembers entries) rest := by
  obtain _ | _ | fuel := fuel
  · omega
  · omega
  cases entries with
  | nil => rw [nestingMembers, within_zero, writeMembers, readMembers_close, inOrderMembers]
  | cons entry more =>
    obtain ⟨name, v⟩ := entry
    obtain ⟨hv, hmore⟩ := List.forall_mem_cons.1 h
    have hv : v.Reread := hv
    have hlength := length_lt_writeMembers name v more rest
    have hothers : readMembers depth fuel false (writeMoreMembers more rest) = _ :=
      readMembers_more hmore (by omega)
    have hread : readMember depth (fuel + 1) (writeMembers ((name, v) :: more) rest) = _ :=
      readMember_write hv hothers (by omega)
    rw [writeMembers_cons, writeString] at hread ⊢
    rw [readMembers_quote, hread]

end Lists

/-- A reader without a limit returns the value, and one with a limit does so just if the text does
not nest deeper. -/
theorem readValue_write {v : Json} (h : v.Integral) : v.Reread := by
  induction h with
  | null =>
    intro depth fuel rest _ hfuel
    obtain _ | fuel := fuel
    · simp [write] at hfuel
    · simp only [write, nesting, within_zero]
      rw [readValue, skipBlanks_cons rfl]
      rfl
  | bool b =>
    intro depth fuel rest _ hfuel
    obtain _ | fuel := fuel
    · cases b <;> simp [write] at hfuel
    · cases b
      all_goals
        simp only [write, nesting, within_zero]
        rw [readValue, skipBlanks_cons rfl]
        rfl
  | @number n hn =>
    intro depth fuel rest hrest hfuel
    have hwrite : (Json.number (.int n)).write rest = Decimal.intText n ++ rest := rfl
    obtain ⟨c, more, htext, hc⟩ := intText_begins n rest
    obtain _ | fuel := fuel
    · simp [hwrite, htext] at hfuel
    · simp only [nesting, within_zero]
      rw [hwrite, htext, readValue_sign _ _ _ hc, ← htext, JsonNumber.read_intText hn hrest]
      rfl
  | string s =>
    intro depth fuel rest _ hfuel
    obtain _ | fuel := fuel
    · simp [write, writeString] at hfuel
    · simp only [write, writeString, nesting, within_zero]
      rw [readValue_quote, readChars_writeChars, Except.map]
      dsimp only
      rw [String.ofList_toList]
      rfl
  | @array items hitems ih =>
    intro depth fuel rest _ hfuel
    rw [write, List.length_cons] at hfuel
    obtain _ | fuel := fuel
    · omega
    · have hread : readItems (depth.map (· - 1)) fuel true (writeItems items rest) = _ :=
        readItems_write (fun v hv => ⟨hitems v hv, ih v hv⟩) (by omega)
      rw [write, readValue_bracket, nesting, ← within_succ, hread, within_map]
      rfl
  | @object members hmembers ih =>
    obtain ⟨entries⟩ := members
    intro depth fuel rest _ hfuel
    rw [write, List.length_cons] at hfuel
    obtain _ | fuel := fuel
    · omega
    · have hread : readMembers (depth.map (· - 1)) fuel true (writeMembers entries rest) = _ :=
        readMembers_write ih (by omega)
      rw [write, readValue_brace, nesting, ← within_succ, hread, within_map]
      rfl

end SyntaxWalk.Json
