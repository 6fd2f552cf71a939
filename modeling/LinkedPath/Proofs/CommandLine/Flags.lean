import LinkedPath.CommandLine.Arguments

/-!
# Flags behind the command

A flag behind the command is read apart from all other arguments.  What reads
as a request without the flag reads, with the flag in front of it, as the
request in which the flag is set and nothing else is changed
(`ofArguments_all`, `ofArguments_noCache`).

The lemmas about the steps of the reading have one shape.  A step that ends
without the flag began without it, because flags are only added; and it goes the
same way when the flag has been given before.
-/

namespace LinkedPath.CommandLine

/-- Two steps of a reading have both succeeded. -/
theorem bind_eq_ok_iff {ε α β : Type} {reading : Except ε α} {next : α → Except ε β}
    {result : β} :
    reading >>= next = .ok result ↔ ∃ value, reading = .ok value ∧ next value = .ok result := by
  cases reading with
  | error stop => exact ⟨nofun, fun ⟨_, h, _⟩ => nomatch h⟩
  | ok value => exact ⟨fun h => ⟨value, rfl, h⟩, fun ⟨_, rfl, hnext⟩ => hnext⟩

namespace Gathered

variable {scope : Scope} {gathered result : Gathered} {waiting? : Option Setting} {flag : Flag}

/-- The same, with a flag that was given before all others. -/
def withFlag (flag : Flag) (gathered : Gathered) : Gathered :=
  { gathered with flags := gathered.flags ++ [flag] }

theorem contains_withFlag (other : Flag) :
    (gathered.withFlag flag).flags.contains other =
      (gathered.flags.contains other || other == flag) := by
  rw [Bool.eq_iff_iff]
  simp [withFlag]

/-! ## Steps of the reading -/

theorem map_none_eq_ok_iff {reading : Except Stop Gathered} :
    (·, none) <$> reading = .ok (result, waiting?) ↔ reading = .ok result ∧ waiting? = none := by
  cases reading with
  | error stop => exact ⟨nofun, fun ⟨h, _⟩ => nomatch h⟩
  | ok value => exact ⟨fun h => by cases h; exact ⟨rfl, rfl⟩, fun ⟨rfl, rfl⟩ => rfl⟩

theorem operand_withFlag {text : String} (h : gathered.operand text = .ok result)
    (hflag : flag ∉ result.flags) :
    flag ∉ gathered.flags ∧
      (gathered.withFlag flag).operand text = .ok (result.withFlag flag) := by
  unfold operand at h
  split at h
  · rename_i hpath
    cases h
    refine ⟨hflag, ?_⟩
    rw [operand, withFlag, hpath]
    rfl
  · contradiction

theorem withSetting_withFlag {setting : Setting} {value : String}
    (h : gathered.withSetting setting value = .ok result) (hflag : flag ∉ result.flags) :
    flag ∉ gathered.flags ∧
      (gathered.withFlag flag).withSetting setting value = .ok (result.withFlag flag) := by
  unfold withSetting at h
  split at h
  · rename_i hsetting
    cases h
    refine ⟨hflag, ?_⟩
    rw [withSetting, withFlag, hsetting]
    rfl
  · contradiction

theorem map_withSetting {setting : Setting} {value : String}
    (h : (·, none) <$> gathered.withSetting setting value = .ok (result, waiting?))
    (hflag : flag ∉ result.flags) :
    flag ∉ gathered.flags ∧
      (·, none) <$> (gathered.withFlag flag).withSetting setting value =
        .ok (result.withFlag flag, waiting?) := by
  obtain ⟨hsetting, rfl⟩ := map_none_eq_ok_iff.mp h
  obtain ⟨hflag, hsetting⟩ := withSetting_withFlag hsetting hflag
  exact ⟨hflag, map_none_eq_ok_iff.mpr ⟨hsetting, rfl⟩⟩

theorem withSwitch_withFlag {meaning : Meaning} (h : gathered.withSwitch meaning = .ok result)
    (hflag : flag ∉ result.flags) :
    flag ∉ gathered.flags ∧
      (gathered.withFlag flag).withSwitch meaning = .ok (result.withFlag flag) := by
  cases meaning with
  | flag given =>
      rw [withSwitch] at h
      split at h
      · contradiction
      · rename_i hfree
        cases h
        obtain ⟨hne, hflag⟩ := List.ne_and_not_mem_of_not_mem_cons hflag
        have hfree' : (gathered.withFlag flag).flags.contains given = false := by
          rw [contains_withFlag]
          simpa [Ne.symm hne] using hfree
        refine ⟨hflag, ?_⟩
        rw [withSwitch, hfree']
        rfl
  | verbose | setting =>
      cases h
      exact ⟨hflag, rfl⟩
  | version | help => contradiction

theorem letters_withFlag {letters : List Char}
    (h : gathered.letters scope letters = .ok (result, waiting?)) (hflag : flag ∉ result.flags) :
    flag ∉ gathered.flags ∧
      (gathered.withFlag flag).letters scope letters = .ok (result.withFlag flag, waiting?) := by
  induction letters generalizing gathered with
  | nil =>
      cases h
      exact ⟨hflag, rfl⟩
  | cons letter rest ih =>
      unfold Gathered.letters at h ⊢
      split at h
      · contradiction
      · -- The value of the setting stands behind its letter, or is waited for.
        split at h
        · cases h
          exact ⟨hflag, rfl⟩
        · exact map_withSetting h hflag
        · exact map_withSetting h hflag
      · obtain ⟨next, hnext, hrest⟩ := bind_eq_ok_iff.mp h
        obtain ⟨hflag, hih⟩ := ih hrest
        obtain ⟨hflag, hswitch⟩ := withSwitch_withFlag hnext hflag
        exact ⟨hflag, bind_eq_ok_iff.mpr ⟨_, hswitch, hih⟩⟩

theorem take_withFlag {argument : Argument}
    (h : gathered.take scope argument = .ok (result, waiting?)) (hflag : flag ∉ result.flags) :
    flag ∉ gathered.flags ∧
      (gathered.withFlag flag).take scope argument = .ok (result.withFlag flag, waiting?) := by
  cases argument with
  | ends =>
      cases h
      exact ⟨hflag, rfl⟩
  | operand text =>
      obtain ⟨hoperand, rfl⟩ := map_none_eq_ok_iff.mp h
      obtain ⟨hflag, hoperand⟩ := operand_withFlag hoperand hflag
      exact ⟨hflag, map_none_eq_ok_iff.mpr ⟨hoperand, rfl⟩⟩
  | short text => exact letters_withFlag h hflag
  | long name value? =>
      unfold take at h ⊢
      dsimp only at h ⊢
      split at h
      · contradiction
      · exact map_withSetting h hflag
      · cases h
        exact ⟨hflag, rfl⟩
      · contradiction
      · obtain ⟨hswitch, rfl⟩ := map_none_eq_ok_iff.mp h
        obtain ⟨hflag, hswitch⟩ := withSwitch_withFlag hswitch hflag
        exact ⟨hflag, map_none_eq_ok_iff.mpr ⟨hswitch, rfl⟩⟩

theorem foldlM_operand_withFlag {texts : List String}
    (h : texts.foldlM operand gathered = .ok result) (hflag : flag ∉ result.flags) :
    flag ∉ gathered.flags ∧
      texts.foldlM operand (gathered.withFlag flag) = .ok (result.withFlag flag) := by
  induction texts generalizing gathered with
  | nil =>
      cases h
      exact ⟨hflag, rfl⟩
  | cons text rest ih =>
      rw [List.foldlM_cons] at h
      obtain ⟨next, hnext, hrest⟩ := bind_eq_ok_iff.mp h
      obtain ⟨hflag, hih⟩ := ih hrest
      obtain ⟨hflag, hoperand⟩ := operand_withFlag hnext hflag
      exact ⟨hflag, by rw [List.foldlM_cons, hoperand]; exact hih⟩

/-! ## The whole reading -/

theorem read_withFlag {arguments : List String}
    (h : gathered.read scope waiting? arguments = .ok result) (hflag : flag ∉ result.flags) :
    flag ∉ gathered.flags ∧
      (gathered.withFlag flag).read scope waiting? arguments = .ok (result.withFlag flag) := by
  induction arguments generalizing gathered waiting? with
  | nil =>
      cases waiting? with
      | none =>
          cases h
          exact ⟨hflag, rfl⟩
      | some setting => contradiction
  | cons text rest ih =>
      cases waiting? with
      | some setting =>
          rw [read] at h ⊢
          split at h
          · contradiction
          · rename_i hdashed
            obtain ⟨next, hnext, hrest⟩ := bind_eq_ok_iff.mp h
            obtain ⟨hflag, hih⟩ := ih hrest
            obtain ⟨hflag, hsetting⟩ := withSetting_withFlag hnext hflag
            refine ⟨hflag, ?_⟩
            rw [if_neg hdashed]
            exact bind_eq_ok_iff.mpr ⟨_, hsetting, hih⟩
      | none =>
          unfold read at h ⊢
          split at h
          · exact foldlM_operand_withFlag h hflag
          · obtain ⟨⟨next, waiting?⟩, hnext, hrest⟩ := bind_eq_ok_iff.mp h
            obtain ⟨hflag, hih⟩ := ih hrest
            obtain ⟨hflag, htake⟩ := take_withFlag hnext hflag
            exact ⟨hflag, bind_eq_ok_iff.mpr ⟨_, htake, hih⟩⟩

end Gathered

/-! ## Requests -/

namespace Request

variable {path : String} {file? : Option String} {source : ContextSource}
variable {all pretty caching : Bool} {arguments : List String}

/-- What makes up a question. -/
theorem ofQueryArguments_eq_ok_iff :
    ofQueryArguments arguments = .ok (.query path file? source all pretty caching) ↔
      ∃ gathered, Gathered.empty.read .query none arguments = .ok gathered ∧
        gathered.path = .ok path ∧ gathered.settings.lookup .file = file? ∧
        gathered.contextSource = .ok source ∧ gathered.flags.contains .all = all ∧
        gathered.flags.contains .pretty = pretty ∧
        (!gathered.flags.contains .noCache) = caching := by
  unfold ofQueryArguments
  constructor
  · intro h
    obtain ⟨gathered, hgathered, h⟩ := bind_eq_ok_iff.mp h
    obtain ⟨path, hpath, h⟩ := bind_eq_ok_iff.mp h
    obtain ⟨source, hsource, h⟩ := bind_eq_ok_iff.mp h
    cases h
    exact ⟨gathered, hgathered, hpath, rfl, hsource, rfl, rfl, rfl⟩
  · rintro ⟨gathered, hgathered, hpath, rfl, hsource, rfl, rfl, rfl⟩
    rw [hgathered]
    show (gathered.path >>= _) = _
    rw [hpath]
    show (gathered.contextSource >>= _) = _
    rw [hsource]
    rfl

/-- The flag is set in a question with these properties. -/
def isSet (all pretty caching : Bool) : Flag → Bool
  | .all => all
  | .pretty => pretty
  | .noCache => !caching

/-- A text that is read as a flag and stands in front of the other arguments sets
the flag and nothing else. -/
theorem ofQueryArguments_flag (text : String) (flag : Flag)
    (htext : ∀ rest, Gathered.empty.read .query none (text :: rest) =
      (Gathered.empty.withFlag flag).read .query none rest)
    (h : ofQueryArguments arguments = .ok (.query path file? source all pretty caching))
    (hnew : isSet all pretty caching flag = false) :
    ofQueryArguments (text :: arguments) =
      .ok (.query path file? source (all || .all == flag) (pretty || .pretty == flag)
        (caching && .noCache != flag)) := by
  obtain ⟨gathered, hgathered, hpath, hfile, hsource, rfl, rfl, rfl⟩ :=
    ofQueryArguments_eq_ok_iff.mp h
  have hflag : flag ∉ gathered.flags := by
    cases flag <;> simpa [isSet] using hnew
  have hread := (Gathered.read_withFlag hgathered hflag).2
  refine ofQueryArguments_eq_ok_iff.mpr
    ⟨gathered.withFlag flag, (htext arguments).trans hread, hpath, hfile, hsource, ?_, ?_, ?_⟩
  · exact Gathered.contains_withFlag _
  · exact Gathered.contains_withFlag _
  · rw [Gathered.contains_withFlag, Bool.not_or]
    rfl

/-- With the flag for all values, a question for the first value is a question
for all of them. -/
theorem ofArguments_all
    (h : ofArguments ("query" :: arguments) = .ok (.query path file? source false pretty caching)) :
    ofArguments ("query" :: "--all" :: arguments) =
      .ok (.query path file? source true pretty caching) := by
  have hflag := ofQueryArguments_flag "--all" .all (fun _ => rfl) h rfl
  rwa [show (pretty || Flag.pretty == Flag.all) = pretty from Bool.or_false pretty,
    show (caching && Flag.noCache != Flag.all) = caching from Bool.and_true caching] at hflag

/-- With the flag against traces, a question that keeps traces is one that keeps
none. -/
theorem ofArguments_noCache
    (h : ofArguments ("query" :: arguments) = .ok (.query path file? source all pretty true)) :
    ofArguments ("query" :: "--no-cache" :: arguments) =
      .ok (.query path file? source all pretty false) := by
  have hflag := ofQueryArguments_flag "--no-cache" .noCache (fun _ => rfl) h rfl
  rwa [show (all || Flag.all == Flag.noCache) = all from Bool.or_false all,
    show (pretty || Flag.pretty == Flag.noCache) = pretty from Bool.or_false pretty] at hflag

end Request

end LinkedPath.CommandLine
