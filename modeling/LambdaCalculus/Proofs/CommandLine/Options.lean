import LambdaCalculus.CommandLine.Options

/-!
# Where the texts of options come from

The terms of a run and the path of its file are arguments, or what stands in an argument behind a
flag. So they have no characters that no argument has.
-/

namespace LambdaCalculus.CommandLine

variable {c : Char}

/-! ### Words -/

/-- Whether a character occurs neither in a plain word nor in what is attached to a flag. -/
def Word.Lacks (c : Char) : Word → Prop
  | .plain text => c ∉ text.toList
  | .flag _ _ attached => ∀ text ∈ attached, c ∉ text
  | _ => True

theorem lacks_wordWithoutFlag {text : String} (h : c ∉ text.toList) :
    (wordWithoutFlag text).Lacks c := by
  unfold wordWithoutFlag
  simp only
  split
  · exact h
  · trivial

theorem not_mem_of_mem_splitAssignment {text : List Char} (h : c ∉ text) :
    ∀ value ∈ (splitAssignment text).2, c ∉ value := by
  intro value hvalue hmem
  unfold splitAssignment at hvalue
  split at hvalue
  · rename_i sign rest hrest
    obtain rfl := Option.some.inj hvalue
    apply h
    apply (List.dropWhile_sublist fun d => decide (d ≠ '=')).mem
    rw [hrest]
    exact List.mem_cons_of_mem sign hmem
  · contradiction

theorem Word.lacks_of_ofText {text : String} (h : c ∉ text.toList) {word : Word}
    (hword : Word.ofText text = .ok word) :
    word.Lacks c := by
  unfold Word.ofText at hword
  simp only at hword
  split at hword
  · obtain rfl := Except.ok.inj hword
    simp [Lacks]
  · rename_i second rest hcs _
    have hvalue := not_mem_of_mem_splitAssignment h
    split at hword
    · obtain rfl := Except.ok.inj hword
      exact hvalue
    · split at hword
      · split at hword
        · obtain rfl := Except.ok.inj hword
          exact lacks_wordWithoutFlag h
        · obtain rfl := Except.ok.inj hword
          exact hvalue
        · contradiction
      · split at hword
        · obtain rfl := Except.ok.inj hword
          intro attached hattached hmem
          obtain rfl := Option.some.inj hattached
          apply h
          rw [hcs]
          exact List.mem_cons_of_mem _ (List.mem_cons_of_mem _ hmem)
        · obtain rfl := Except.ok.inj hword
          exact lacks_wordWithoutFlag h
  · obtain rfl := Except.ok.inj hword
    exact h

theorem Word.lacks_of_ofTexts {texts : List String} (h : ∀ text ∈ texts, c ∉ text.toList)
    {words : List Word}
    (hwords : Word.ofTexts texts = .ok words) : ∀ word ∈ words, word.Lacks c := by
  fun_induction Word.ofTexts texts generalizing words with
  | case1 =>
      obtain rfl := Except.ok.inj hwords
      simp
  | case2 rest =>
      obtain rfl := Except.ok.inj hwords
      intro word hword
      rcases List.mem_cons.mp hword with rfl | hplain
      · trivial
      · obtain ⟨text, htext, rfl⟩ := List.mem_map.mp hplain
        exact h text (List.mem_cons_of_mem _ htext)
  | case3 => contradiction
  | case4 text rest _ word hword ih =>
      obtain ⟨htext, hrest⟩ := List.forall_mem_cons.mp h
      cases hlater : Word.ofTexts rest with
      | error message =>
          rw [hlater] at hwords
          contradiction
      | ok later =>
          rw [hlater] at hwords
          obtain rfl := Except.ok.inj hwords
          exact List.forall_mem_cons.mpr ⟨Word.lacks_of_ofText htext hword, ih hrest hlater⟩

/-! ### Flags and their values -/

/-- Whether a character does not occur in the value of the last flag of a word. -/
def Cluster.Lacks (c : Char) (cluster : Cluster) : Prop :=
  ∀ value ∈ cluster.last.value, c ∉ value.toList

theorem Cluster.lacks_ofShort {flag : Flag} {text : List Char} (h : c ∉ text) {cluster : Cluster}
    (hcluster : Cluster.ofShort flag text = .ok cluster) : cluster.Lacks c := by
  fun_induction Cluster.ofShort flag text generalizing cluster with
  | case1 =>
      obtain rfl := Except.ok.inj hcluster
      simpa [Lacks] using h
  | case4 =>
      obtain rfl := Except.ok.inj hcluster
      simp [Lacks]
  | case5 flag _ letter rest next _ _ ih =>
      cases hnext : Cluster.ofShort next rest with
      | error refusal =>
          rw [hnext] at hcluster
          contradiction
      | ok following =>
          rw [hnext] at hcluster
          obtain rfl := Except.ok.inj hcluster
          have hfollowing : following.Lacks c := ih (mt (List.mem_cons_of_mem letter) h) hnext
          exact hfollowing
  | _ => contradiction

theorem Cluster.lacks_ofFlag {flag : Flag} {short : Bool} {attached : Option (List Char)}
    (h : ∀ text ∈ attached, c ∉ text) {cluster : Cluster}
    (hcluster : Cluster.ofFlag flag short attached = .ok cluster) :
    cluster.Lacks c := by
  cases attached with
  | none =>
      obtain rfl := Except.ok.inj hcluster
      simp [Lacks]
  | some text =>
      have htext : c ∉ text := h text rfl
      simp only [ofFlag] at hcluster
      split at hcluster
      · exact lacks_ofShort htext hcluster
      · split at hcluster
        · obtain rfl := Except.ok.inj hcluster
          simpa [Lacks] using htext
        · contradiction

/-! ### Options -/

/-- Whether a character occurs neither in the terms of a command line nor in the path of its
file. -/
def Options.Lacks (c : Char) (options : Options) : Prop :=
  (∀ term ∈ options.terms, c ∉ term.toList) ∧ ∀ path, options.file = .named path → c ∉ path.toList

theorem Progress.lacks_plainWord {p : Progress} (hp : p.options.Lacks c) {text : String}
    (h : c ∉ text.toList) :
    (p.plainWord text).options.Lacks c := by
  unfold plainWord
  split
  · exact hp
  · refine ⟨?_, hp.2⟩
    simp only [List.forall_mem_append, List.forall_mem_singleton]
    exact ⟨hp.1, h⟩

theorem Progress.lacks_terminatorWord {p : Progress} (hp : p.options.Lacks c) :
    p.terminatorWord.options.Lacks c := by
  unfold terminatorWord
  split
  · exact hp
  · exact hp

theorem Progress.lacks_atFlag {p : Progress} (hp : p.options.Lacks c) :
    p.atFlag.options.Lacks c := by
  unfold atFlag
  split
  · exact hp
  · exact hp

theorem Progress.lacks_switchOn {p p' : Progress} (hp : p.options.Lacks c) {flag : Flag}
    (h : p.switchOn flag = .ok p') : p'.options.Lacks c := by
  cases flag with
  | help => contradiction
  | _ =>
      obtain rfl := Except.ok.inj h
      exact hp

theorem Progress.lacks_switches {p p' : Progress} (hp : p.options.Lacks c) {flags : List Flag}
    (h : flags.foldlM switchOn p = .ok p') : p'.options.Lacks c := by
  induction flags generalizing p with
  | nil =>
      obtain rfl := Except.ok.inj h
      exact hp
  | cons flag flags ih =>
      rw [List.foldlM_cons] at h
      cases hflag : p.switchOn flag with
      | error refusal =>
          rw [hflag] at h
          contradiction
      | ok q =>
          rw [hflag] at h
          exact ih (lacks_switchOn hp hflag) h

theorem Progress.lacks_setValue {p p' : Progress} (hp : p.options.Lacks c) {flag : Flag}
    {value : String}
    (hvalue : c ∉ value.toList) (h : p.setValue flag value = .ok p') : p'.options.Lacks c := by
  unfold setValue at h
  split at h
  · obtain rfl := Except.ok.inj h
    exact ⟨hp.1, by simp⟩
  · obtain rfl := Except.ok.inj h
    refine ⟨hp.1, ?_⟩
    intro path hpath
    obtain rfl := FileChoice.named.inj hpath
    exact hvalue
  · obtain rfl := Except.ok.inj h
    exact hp
  · split at h
    · obtain rfl := Except.ok.inj h
      exact hp
    · contradiction
  · obtain rfl := Except.ok.inj h
    exact hp

theorem Progress.lacks_actOn {p p' : Progress} (hp : p.options.Lacks c) {cluster : Cluster}
    (hcluster : cluster.Lacks c)
    (h : p.actOn cluster = .ok p') : p'.options.Lacks c := by
  unfold actOn at h
  cases hswitches : cluster.switches.foldlM switchOn p.atFlag with
  | error refusal =>
      rw [hswitches] at h
      contradiction
  | ok q =>
      have hq : q.options.Lacks c := lacks_switches (lacks_atFlag hp) hswitches
      rw [hswitches] at h
      simp only [bind, Except.bind] at h
      split at h
      · exact lacks_switchOn hq h
      · rename_i value hvalue
        exact lacks_setValue hq (hcluster value hvalue) h

theorem lacks_of_readWords {p p' : Progress} (hp : p.options.Lacks c) {words : List Word}
    (hwords : ∀ word ∈ words, word.Lacks c) (h : readWords p words = .ok p') :
    p'.options.Lacks c := by
  fun_induction readWords p words with
  | case1 =>
      obtain rfl := Except.ok.inj h
      exact hp
  | case2 p text rest ih =>
      obtain ⟨htext, hrest⟩ := List.forall_mem_cons.mp hwords
      exact ih (Progress.lacks_plainWord hp htext) hrest h
  | case3 p rest ih =>
      obtain ⟨-, hrest⟩ := List.forall_mem_cons.mp hwords
      exact ih (Progress.lacks_terminatorWord hp) hrest h
  | case4 p text rest ih =>
      obtain ⟨-, hrest⟩ := List.forall_mem_cons.mp hwords
      exact ih (Progress.lacks_atFlag hp) hrest h
  | case7 p flag short attached rest cluster hcluster _ q hact ih =>
      obtain ⟨hattached, hrest⟩ := List.forall_mem_cons.mp hwords
      exact ih (Progress.lacks_actOn hp (Cluster.lacks_ofFlag hattached hcluster) hact) hrest h
  | case9 p flag short attached cluster _ waiting _ value rest q hact ih =>
      obtain ⟨-, hlater⟩ := List.forall_mem_cons.mp hwords
      obtain ⟨hvalue, hrest⟩ := List.forall_mem_cons.mp hlater
      have hfilled : Cluster.Lacks c { cluster with last := ⟨waiting, some value⟩ } := by
        intro text htext
        obtain rfl := Option.some.inj htext
        exact hvalue
      exact ih (Progress.lacks_actOn hp hfilled hact) hrest h
  | _ => contradiction

/-- What no argument has in it is in none of the texts that the options hold. -/
theorem lacks_of_ofArguments {arguments : List String}
    (h : ∀ argument ∈ arguments, c ∉ argument.toList)
    {options : Options} (hoptions : Options.ofArguments arguments = .ok options) :
    options.Lacks c := by
  unfold Options.ofArguments at hoptions
  split at hoptions
  · contradiction
  · rename_i words hwords
    split at hoptions
    · contradiction
    · rename_i p hread
      have hp : p.options.Lacks c :=
        lacks_of_readWords ⟨by simp, by simp⟩ (Word.lacks_of_ofTexts h hwords) hread
      split at hoptions
      · obtain rfl := Except.ok.inj hoptions
        exact hp
      · contradiction

end LambdaCalculus.CommandLine
