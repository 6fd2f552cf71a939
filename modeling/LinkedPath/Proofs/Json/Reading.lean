import LinkedPath.Json.Reader
import LinkedPath.Proofs.Keyed

/-!
# Documents that are read are well formed

The machine that reads a document puts every member under its key, so no object
it has finished or still has open repeats a key.  This holds of everything the
machine keeps, at every token, and so of the document that it reads.
-/

namespace LinkedPath.Json

/-! ## What the machine keeps -/

/-- A scalar holds no object that repeats a key. -/
def Token.Sound : Token → Prop
  | .scalar value => value.WellFormed
  | _ => True

/-- The members and items of an open container are well formed. -/
def Frame.Sound : Frame → Prop
  | .items done => ∀ item ∈ done, item.WellFormed
  | .members done _ => (object done).WellFormed

/-- What has been read before the next token is well formed. -/
def Expected.Sound : Expected → Prop
  | .key done => (object done).WellFormed
  | .after read => read.WellFormed
  | _ => True

structure Reading.Sound (reading : Reading) : Prop where
  frames : ∀ frame ∈ reading.frames, frame.Sound
  expected : reading.expected.Sound

theorem wellFormed_object_nil : (object []).WellFormed := by
  rw [WellFormed]
  exact ⟨List.nodup_nil, (membersWellFormed_iff []).mpr (by simp)⟩

theorem wellFormed_object_put {members : List (String × Json)} {value : Json} (key : String)
    (hmembers : (object members).WellFormed) (hvalue : value.WellFormed) :
    (object (Keyed.put key value members)).WellFormed := by
  rw [WellFormed] at hmembers ⊢
  refine ⟨Keyed.nodup_keys_put key value hmembers.1, ?_⟩
  rw [membersWellFormed_iff] at hmembers ⊢
  intro entry hentry
  rcases Keyed.mem_of_mem_put hentry with hnew | hold
  · rw [hnew]
    exact hvalue
  · exact hmembers.2 entry hold

theorem wellFormed_array_reverse {done : List Json} (h : ∀ item ∈ done, item.WellFormed) :
    (array done.reverse).WellFormed := by
  rw [WellFormed, allWellFormed_iff]
  intro item hitem
  exact h item (List.mem_reverse.mp hitem)

/-! ## Tokens -/

theorem sound_of_token? {text rest : List Char} {token : Token}
    (h : token? text = some (token, rest)) : token.Sound := by
  unfold token? at h
  -- Two kinds of tokens are computed: strings and numbers.
  split at h
  case h_7 tail =>
      obtain ⟨found, _, hfound⟩ := Option.map_eq_some_iff.mp h
      cases hfound
      trivial
  case h_11 =>
      split at h
      · contradiction
      · obtain ⟨value, _, hvalue⟩ := Option.map_eq_some_iff.mp h
        cases hvalue
        trivial
  all_goals
    cases h
    trivial

theorem sound_of_tokensFrom? {read tokens : List Token} {text : List Char}
    (hread : ∀ token ∈ read, token.Sound) (h : tokensFrom? read text = some tokens) :
    ∀ token ∈ tokens, token.Sound := by
  fun_induction tokensFrom? read text with
  | case1 read text hskip =>
      obtain rfl := Option.some.inj h
      intro token htoken
      exact hread token (List.mem_reverse.mp htoken)
  | case2 read text c rest hskip htoken => contradiction
  | case3 read text c rest hskip token left htoken ih =>
      exact ih (List.forall_mem_cons.mpr ⟨sound_of_token? htoken, hread⟩) h

/-! ## Steps of the machine -/

namespace Reading

variable {limit : Nat} {frames : List Frame} {token : Token} {next : Reading}

theorem sound_of_value? (limit : Nat) (hframes : ∀ frame ∈ frames, frame.Sound) (htoken : token.Sound)
    (h : value? limit frames token = some next) : next.Sound := by
  cases token with
  | scalar value =>
      obtain rfl := Option.some.inj h
      exact ⟨hframes, htoken⟩
  | text value =>
      obtain rfl := Option.some.inj h
      exact ⟨hframes, trivial⟩
  | openArray =>
      rw [value?, openArray?] at h
      split at h
      · obtain rfl := Option.some.inj h
        have hitems : (Frame.items []).Sound := fun item hitem => absurd hitem List.not_mem_nil
        exact ⟨List.forall_mem_cons.mpr ⟨hitems, hframes⟩, trivial⟩
      · contradiction
  | openObject =>
      rw [value?, openObject?] at h
      split at h
      · obtain rfl := Option.some.inj h
        exact ⟨hframes, trivial⟩
      · contradiction
  | closeArray | closeObject | comma | colon => contradiction

theorem sound_of_after? {value : Json} (hvalue : value.WellFormed)
    (hframes : ∀ frame ∈ frames, frame.Sound) (h : after? value frames token = some next) :
    next.Sound := by
  cases frames with
  | nil => simp [after?] at h
  | cons frame below =>
      obtain ⟨hframe, hbelow⟩ := List.forall_mem_cons.mp hframes
      cases frame with
      | items done =>
          have hdone : (Frame.items (value :: done)).Sound :=
            List.forall_mem_cons.mpr ⟨hvalue, hframe⟩
          cases token with
          | comma =>
              obtain rfl := Option.some.inj h
              exact ⟨List.forall_mem_cons.mpr ⟨hdone, hbelow⟩, trivial⟩
          | closeArray =>
              obtain rfl := Option.some.inj h
              exact ⟨hbelow, wellFormed_array_reverse hdone⟩
          | _ => contradiction
      | members done key =>
          -- The value goes under its key whether more members follow or not.
          have hput := wellFormed_object_put key hframe hvalue
          cases token with
          | comma =>
              obtain rfl := Option.some.inj h
              exact ⟨hbelow, hput⟩
          | closeObject =>
              obtain rfl := Option.some.inj h
              exact ⟨hbelow, hput⟩
          | _ => contradiction

theorem Sound.step? {reading : Reading} (hreading : reading.Sound) (htoken : token.Sound)
    (h : reading.step? limit token = some next) : next.Sound := by
  obtain ⟨frames, expected⟩ := reading
  obtain ⟨hframes, hexpected⟩ := hreading
  -- What is expected decides which tokens are taken at all.
  cases expected with
  | value => exact sound_of_value? limit hframes htoken h
  | after read => exact sound_of_after? hexpected hframes h
  | firstItem =>
      cases token with
      | closeArray =>
          obtain rfl := Option.some.inj h
          refine ⟨fun frame hframe => hframes frame (List.mem_of_mem_tail hframe), ?_⟩
          have hitems : ∀ item ∈ ([] : List Json), item.WellFormed := by simp
          exact wellFormed_array_reverse hitems
      | _ => exact sound_of_value? limit hframes htoken h
  | firstKey =>
      cases token with
      | closeObject =>
          obtain rfl := Option.some.inj h
          exact ⟨hframes, wellFormed_object_nil⟩
      | text key =>
          obtain rfl := Option.some.inj h
          have hmembers : (Frame.members [] key).Sound := wellFormed_object_nil
          exact ⟨List.forall_mem_cons.mpr ⟨hmembers, hframes⟩, trivial⟩
      | _ => contradiction
  | key done =>
      cases token with
      | text key =>
          obtain rfl := Option.some.inj h
          have hmembers : (Frame.members done key).Sound := hexpected
          exact ⟨List.forall_mem_cons.mpr ⟨hmembers, hframes⟩, trivial⟩
      | _ => contradiction
  | colon =>
      cases token with
      | colon =>
          obtain rfl := Option.some.inj h
          exact ⟨hframes, trivial⟩
      | _ => contradiction

theorem wellFormed_of_run? {reading : Reading} {tokens : List Token} {value : Json}
    (hreading : reading.Sound) (htokens : ∀ token ∈ tokens, token.Sound)
    (h : reading.run? limit tokens = some value) : value.WellFormed := by
  induction tokens generalizing reading with
  | nil =>
      obtain ⟨frames, expected⟩ := reading
      rw [run?, result?] at h
      split at h
      · obtain rfl := Option.some.inj h
        rename_i hexpected
        have hsound := hreading.expected
        rw [hexpected] at hsound
        exact hsound
      · contradiction
  | cons token rest ih =>
      obtain ⟨htoken, hrest⟩ := List.forall_mem_cons.mp htokens
      rw [run?] at h
      split at h
      · contradiction
      · rename_i next hnext
        exact ih (hreading.step? htoken hnext) hrest h

end Reading

/-- No object of a document that is read from a text repeats a key. -/
theorem wellFormed_of_parse? {text : String} {document : Json}
    (h : parse? text = some document) : document.WellFormed := by
  obtain ⟨tokens, htokens, hrun⟩ := Option.bind_eq_some_iff.mp h
  have hstart : Reading.start.Sound := ⟨by simp [Reading.start], trivial⟩
  have hnone : ∀ token ∈ ([] : List Token), token.Sound := by simp
  have hsound := sound_of_tokensFrom? hnone htokens
  exact Reading.wellFormed_of_run? hstart hsound hrun

end LinkedPath.Json
