import SyntaxWalk.Proofs.OrderedTree

/-!
# Putting entries in order

What `ofList` makes of a list of entries: nothing where they are in order already
(`ofList_of_sorted`), and where only some of them are kept, those in the order that they had if it
was the right one (`restrict_ofList`). A map in order is known by what it holds under each name
(`Sorted.ext`).
-/

namespace SyntaxWalk

namespace NameMap

variable {α : Type} {name : String} {value : α} {entries : List (String × α)}

theorem find_of_mem (h : (entries.map Prod.fst).Nodup) (hmem : (name, value) ∈ entries) :
    find name entries = some value := by
  induction entries with
  | nil => cases hmem
  | cons entry rest ih =>
    obtain ⟨other, v⟩ := entry
    obtain ⟨hother, hrest⟩ := List.nodup_cons.1 h
    rcases List.mem_cons.1 hmem with heq | hmem
    · cases heq
      exact if_pos rfl
    · have hne : other ≠ name := by
        rintro rfl
        exact hother (List.mem_map.2 ⟨_, hmem, rfl⟩)
      rw [find, if_neg hne]
      exact ih hrest hmem

theorem Sorted.ext {m m' : NameMap α} (hm : m.Sorted) (hm' : m'.Sorted)
    (h : ∀ name, m.get? name = m'.get? name) : m = m' := by
  have hsub : ∀ {a b : NameMap α}, a.Sorted → (∀ name, a.get? name = b.get? name) →
      ∀ entry ∈ a.entries, entry ∈ b.entries := by
    intro a b ha hab entry hentry
    apply mem_of_find
    rw [← get?, ← hab]
    exact find_of_mem ha.nodup hentry
  have hnodup : ∀ {a : NameMap α}, a.Sorted → a.entries.Nodup := fun ha =>
    List.Pairwise.of_map Prod.fst (fun _ _ hne heq => hne (congrArg Prod.fst heq)) ha.nodup
  have hperm : m.entries.Perm m'.entries := by
    apply (List.perm_ext_iff_of_nodup (hnodup hm) (hnodup hm')).2
    exact fun entry => ⟨hsub hm h entry, hsub hm' (fun name => (h name).symm) entry⟩
  have hentries : m.entries = m'.entries := by
    have hanti : ∀ a b : String × α, a ∈ m.entries → b ∈ m'.entries → a.1 < b.1 → b.1 < a.1 →
        a = b := fun a b _ _ hab hba =>
      absurd (String.lt_trans hab hba) (String.lt_irrefl a.1)
    exact hperm.eq_of_pairwise hanti (List.pairwise_map.1 hm) (List.pairwise_map.1 hm')
  exact congrArg NameMap.mk hentries

def insertAll (m : NameMap α) (entries : List (String × α)) : NameMap α :=
  entries.foldl (fun m (name, value) => m.insert name value) m

theorem insertAll_cons (m : NameMap α) (entry : String × α) (rest : List (String × α)) :
    m.insertAll (entry :: rest) = (m.insert entry.1 entry.2).insertAll rest := rfl

theorem ofList_eq_insertAll (entries : List (String × α)) :
    ofList entries = empty.insertAll entries := rfl

theorem put_of_lt (h : ∀ other ∈ entries.map Prod.fst, other < name) :
    put name value entries = entries ++ [(name, value)] := by
  induction entries with
  | nil => rfl
  | cons entry rest ih =>
    obtain ⟨other, v⟩ := entry
    obtain ⟨hfirst, hrest⟩ := List.forall_mem_cons.1 h
    have hne : other ≠ name := fun heq => String.lt_irrefl name (heq ▸ hfirst)
    have hnlt : ¬ name < other := fun hlt => String.lt_irrefl name (String.lt_trans hlt hfirst)
    rw [put, if_neg hne, if_neg hnlt, ih hrest]
    rfl

theorem put_of_gt (h : ∀ other ∈ entries.map Prod.fst, name < other) :
    put name value entries = (name, value) :: entries := by
  cases entries with
  | nil => rfl
  | cons entry rest =>
    obtain ⟨other, v⟩ := entry
    have hlt : name < other := h other List.mem_cons_self
    have hne : other ≠ name := fun heq => String.lt_irrefl name (heq ▸ hlt)
    rw [put, if_neg hne, if_pos hlt]

theorem insertAll_of_sorted (m : NameMap α) (h : (⟨m.entries ++ entries⟩ : NameMap α).Sorted) :
    m.insertAll entries = ⟨m.entries ++ entries⟩ := by
  induction entries generalizing m with
  | nil => rw [List.append_nil]; rfl
  | cons entry rest ih =>
    have hnames : (m.names ++ entry.1 :: rest.map Prod.fst).Pairwise (· < ·) := by
      simpa only [Sorted, names, List.map_append, List.map_cons] using h
    have hput : m.insert entry.1 entry.2 = ⟨m.entries ++ [entry]⟩ := by
      rw [insert, put_of_lt]
      exact fun other hother =>
        (List.pairwise_append.1 hnames).2.2 other hother entry.1 List.mem_cons_self
    rw [insertAll_cons, hput, ih _ (by simpa using h)]
    simp

theorem ofList_of_sorted (h : (⟨entries⟩ : NameMap α).Sorted) : ofList entries = ⟨entries⟩ :=
  insertAll_of_sorted empty h

section Filter

variable (keep : String → Bool)

def restrict (entries : List (String × α)) : List (String × α) :=
  entries.filter fun entry => keep entry.1

theorem restrict_cons (entry : String × α) (rest : List (String × α)) :
    restrict keep (entry :: rest) =
      if keep entry.1 then entry :: restrict keep rest else restrict keep rest := List.filter_cons

theorem restrict_put (h : (⟨entries⟩ : NameMap α).Sorted) :
    restrict keep (put name value entries) =
      if keep name then put name value (restrict keep entries) else restrict keep entries := by
  induction entries with
  | nil => exact restrict_cons keep _ _
  | cons entry rest ih =>
    obtain ⟨other, v⟩ := entry
    obtain ⟨hfirst, hrest⟩ := List.pairwise_cons.1 h
    have ih := ih hrest
    by_cases heq : other = name
    · subst heq
      by_cases hname : keep other <;> simp [put, restrict_cons, hname]
    · by_cases hlt : name < other
      · have hgt : ∀ n ∈ (restrict keep ((other, v) :: rest)).map Prod.fst, name < n := by
          intro n hn
          have hmem : n ∈ ((other, v) :: rest).map Prod.fst :=
            (List.filter_sublist.map Prod.fst).subset hn
          rcases List.mem_cons.1 hmem with rfl | hmem
          · exact hlt
          · exact String.lt_trans hlt (hfirst n hmem)
        rw [put, if_neg heq, if_pos hlt, restrict_cons, put_of_gt hgt]
      · rw [put, if_neg heq, if_neg hlt, restrict_cons, ih, restrict_cons]
        by_cases hother : keep other <;> by_cases hname : keep name <;>
          simp [hother, hname, put, heq, hlt]

theorem restrict_insertAll (m : NameMap α) (hm : m.Sorted) (entries : List (String × α)) :
    restrict keep (m.insertAll entries).entries =
      ((⟨restrict keep m.entries⟩ : NameMap α).insertAll (restrict keep entries)).entries := by
  induction entries generalizing m with
  | nil => rfl
  | cons entry rest ih =>
    rw [insertAll_cons, ih _ (sorted_insert hm entry.1 entry.2), restrict_cons]
    have hput : restrict keep (m.insert entry.1 entry.2).entries = _ := restrict_put keep hm
    rw [hput]
    by_cases hname : keep entry.1
    · rw [if_pos hname, if_pos hname]
      rfl
    · rw [if_neg hname, if_neg hname]

/-- Where the kept entries are in order already, putting all of them in order leaves those as they
are. -/
theorem restrict_ofList (h : (⟨restrict keep entries⟩ : NameMap α).Sorted) :
    restrict keep (ofList entries).entries = restrict keep entries := by
  rw [ofList_eq_insertAll, restrict_insertAll keep empty List.Pairwise.nil entries]
  exact congrArg NameMap.entries (insertAll_of_sorted empty h)

end Filter

theorem get?_insertAll_of_notMem (m : NameMap α) (h : name ∉ entries.map Prod.fst) :
    (m.insertAll entries).get? name = m.get? name := by
  induction entries generalizing m with
  | nil => rfl
  | cons entry rest ih =>
    obtain ⟨hfirst, hrest⟩ := not_or.1 fun hor => h (List.mem_cons.2 hor)
    rw [insertAll_cons, ih _ hrest, get?_insert, if_neg hfirst]

theorem get?_ofList_eq_none (h : name ∉ entries.map Prod.fst) : (ofList entries).get? name = none :=
  get?_insertAll_of_notMem empty h

theorem get?_ofList (before : List (String × α)) (h : name ∉ entries.map Prod.fst) :
    (ofList (before ++ (name, value) :: entries)).get? name = some value := by
  have happend : ofList (before ++ (name, value) :: entries) =
      ((empty.insertAll before).insert name value).insertAll entries := List.foldl_append
  rw [happend, get?_insertAll_of_notMem _ h, get?_insert, if_pos rfl]

theorem get?_ofList_of_nodup (h : (entries.map Prod.fst).Nodup) :
    (ofList entries).get? name = find name entries := by
  cases hfind : find name entries with
  | none => exact get?_ofList_eq_none (find_eq_none.1 hfind)
  | some value =>
    obtain ⟨before, after, rfl⟩ := List.append_of_mem (mem_of_find hfind)
    have hafter : name ∉ after.map Prod.fst := by
      rw [List.map_append, List.map_cons] at h
      exact (List.nodup_cons.1 (List.nodup_append.1 h).2.1).1
    exact get?_ofList before hafter

end NameMap

end SyntaxWalk
