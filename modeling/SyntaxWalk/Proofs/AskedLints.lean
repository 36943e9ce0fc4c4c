import SyntaxWalk.CommandLine.Arguments
import SyntaxWalk.Proofs.OrderedJson

/-!
# Lints asked for

The lints of a check are those named by its arguments, all of them and in their order: whatever
follows `--lint`, or is joined to it, up to the first `--` (`lints_of_readArguments`).
-/

namespace SyntaxWalk.CommandLine

def askedNames : List String → List String
  | [] => []
  | argument :: rest =>
    match Token.ofArgument argument with
    | .terminator => []
    | .long name joined =>
      if name = "lint" then (joined.or rest.head?).toList ++ askedNames rest else askedNames rest
    | _ => askedNames rest

theorem name_of_ofName? {name : String} {lint : Lint} (h : Lint.ofName? name = some lint) :
    lint.name = name := by
  unfold Lint.ofName? at h
  simpa using List.find?_some h

namespace Draft

variable {d d' : Draft}

def names (d : Draft) : List String := d.lints.map Lint.name

theorem names_of_finish {a : CheckArguments} (h : d.finish = .ok (.check a)) :
    a.lints.map Lint.name = d.names := by
  unfold finish at h
  split at h
  · cases h
  · cases h
    rfl

theorem addPath_names {path : String} (h : d.addPath path = .ok d') : d'.names = d.names := by
  unfold addPath at h
  split at h
  · cases h
  · obtain ⟨ast, -, heq⟩ := of_bind_eq_ok h
    cases heq
    rfl

theorem addPaths_names {paths : List String} (h : paths.foldlM addPath d = .ok d') :
    d'.names = d.names := by
  induction paths generalizing d with
  | nil =>
    cases h
    rfl
  | cons path rest ih =>
    rw [List.foldlM_cons] at h
    obtain ⟨d₁, hfirst, hrest⟩ := of_bind_eq_ok h
    exact (ih hrest).trans (addPath_names hfirst)

theorem addOption_names {name value : String} (h : d.addOption name value = .ok d') :
    d'.names = d.names ++ (if name = "lint" then [value] else []) := by
  unfold addOption at h
  by_cases hlint : name = "lint"
  · subst hlint
    simp only [String.reduceEq, if_false, if_true] at h ⊢
    split at h
    · rename_i lint hvalue
      cases h
      simp [names, name_of_ofName? hvalue]
    · cases h
  · have hsame : d'.lints = d.lints := by
      simp only [if_neg hlint] at h
      split at h
      · split at h
        · cases h
        · obtain ⟨path, -, heq⟩ := of_bind_eq_ok h
          cases heq
          rfl
      · split at h
        · split at h
          · cases h
          · obtain ⟨path, -, heq⟩ := of_bind_eq_ok h
            cases heq
            rfl
        · split at h
          · split at h
            · cases h
            · split at h
              · cases h
                rfl
              · cases h
          · split at h
            · cases h
            · obtain ⟨u, -, heq⟩ := of_bind_eq_ok h
              cases heq
              rfl
    rw [names, hsame, if_neg hlint, List.append_nil, names]

end Draft

theorem plain_eq {argument text : String} (h : Token.ofArgument argument = .plain text) :
    text = argument := by
  unfold Token.ofArgument at h
  split at h
  · cases h
  · dsimp only at h
    split at h <;> cases h
  · cases h
  · cases h
    rfl

theorem askedNames_of_valueOf {option value : String} {joined : Option String}
    {rest more : List String} (h : valueOf option joined rest = .ok (value, more)) :
    joined.or rest.head? = some value ∧ askedNames rest = askedNames more ∧
      more.length ≤ rest.length := by
  unfold valueOf at h
  split at h
  · cases h
    exact ⟨rfl, rfl, Nat.le_refl _⟩
  · unfold separateValue at h
    split at h
    · cases h
    · split at h
      · rename_i hplain
        cases h
        rw [askedNames, hplain, plain_eq hplain]
        exact ⟨rfl, rfl, Nat.le_succ _⟩
      · cases h

theorem readCheck_lints {fuel : Nat} {d : Draft} {arguments : List String}
    (hfuel : arguments.length ≤ fuel) {a : CheckArguments}
    (h : readCheck fuel d arguments = .ok (.check a)) :
    a.lints.map Lint.name = d.names ++ askedNames arguments := by
  induction fuel generalizing d arguments with
  | zero =>
    obtain rfl := List.eq_nil_of_length_eq_zero (Nat.le_zero.1 hfuel)
    rw [askedNames, List.append_nil]
    exact Draft.names_of_finish h
  | succ fuel ih =>
    cases arguments with
    | nil =>
      rw [askedNames, List.append_nil]
      exact Draft.names_of_finish h
    | cons argument rest =>
      rw [List.length_cons] at hfuel
      rw [readCheck] at h
      rw [askedNames]
      split at h
      · rename_i htoken
        obtain ⟨d₁, hpaths, hfinish⟩ := of_bind_eq_ok h
        rw [htoken, List.append_nil, Draft.names_of_finish hfinish, Draft.addPaths_names hpaths]
      · rename_i path htoken
        obtain ⟨d₁, hpath, hrest⟩ := of_bind_eq_ok h
        rw [htoken, ih (by omega) hrest, Draft.addPath_names hpath]
      · split at h <;> cases h
      · rename_i name joined htoken
        rw [htoken]
        split at h
        · cases h
        · split at h
          · obtain ⟨⟨value, more⟩, hvalue, hadd⟩ := of_bind_eq_ok h
            obtain ⟨d₁, hoption, hrest⟩ := of_bind_eq_ok hadd
            obtain ⟨hgiven, hskip, hlength⟩ := askedNames_of_valueOf hvalue
            dsimp only
            rw [ih (by omega) hrest, Draft.addOption_names hoption, hgiven, hskip]
            split <;> simp
          · cases h

theorem readRoot_lints {fuel : Nat} {levelGiven : Bool} {arguments : List String}
    {a : CheckArguments} (h : readRoot fuel levelGiven arguments = .ok (.check a)) :
    a.lints.map Lint.name = askedNames arguments := by
  induction fuel generalizing levelGiven arguments with
  | zero => cases h
  | succ fuel ih =>
    cases arguments with
    | nil => cases h
    | cons argument rest =>
      rw [readRoot] at h
      rw [askedNames]
      split at h
      · cases h
      · rename_i name htoken
        rw [htoken]
        split at h
        · exact readCheck_lints (Nat.le_refl _) h
        · split at h
          · unfold readHelp at h
            split at h <;> cases h
          · cases h
      · split at h
        · cases h
        · split at h <;> cases h
      · rename_i name joined htoken
        rw [htoken]
        split at h
        · cases h
        · split at h
          · cases h
          · split at h
            · rename_i hlevel
              split at h
              · cases h
              · obtain ⟨⟨value, more⟩, hvalue, hadd⟩ := of_bind_eq_ok h
                obtain ⟨u, -, hrest⟩ := of_bind_eq_ok hadd
                obtain ⟨-, hskip, -⟩ := askedNames_of_valueOf hvalue
                have hname : name ≠ "lint" := by
                  rw [hlevel]
                  decide
                dsimp only
                rw [if_neg hname, hskip]
                exact ih hrest
            · cases h

theorem lints_of_readArguments {arguments : List String} {a : CheckArguments}
    (h : readArguments arguments = .ok (.check a)) :
    a.lints.map Lint.name = askedNames arguments := readRoot_lints h

end SyntaxWalk.CommandLine
