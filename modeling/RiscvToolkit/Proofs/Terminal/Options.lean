import RiscvToolkit.Proofs.Except
import RiscvToolkit.Terminal.Options

/-! Words of a command line. What is read from them gives each option once, with a value that it can have. -/
namespace RiscvToolkit.Terminal

/-- True of the values that an option can have. -/
def OptionRole.Takes (value : String) : OptionRole → Prop
  | .flag => value = ""
  | .value check => check value = .ok ()
  | .answer _ => False

/-- True of what can be read from words. -/
structure Arguments.Sound (names : List OptionName) (a : Arguments) : Prop where
  once : (a.options.map (·.1)).Nodup
  values : ∀ given ∈ a.options, ∃ option ∈ names,
    option.long = given.1 ∧ option.role.Takes given.2
  words : ∀ word ∈ a.positionals, word ≠ ""

variable {names : List OptionName} {a b : Arguments}

namespace Arguments

theorem has_iff (a : Arguments) (long : String) :
    a.has long = true ↔ long ∈ a.options.map (·.1) := by
  rw [has, value?, List.lookup_isSome_iff, List.mem_map]
  simp only [beq_iff_eq, @eq_comm _ long]

theorem mem_of_value? {long value : String} (h : a.value? long = some value) :
    (long, value) ∈ a.options := by
  obtain ⟨before, behind, ho, -⟩ := List.lookup_eq_some_iff.mp h
  rw [ho]
  exact List.mem_append_right _ List.mem_cons_self

namespace Sound

theorem empty (names : List OptionName) : Sound names ⟨[], []⟩ where
  once := .nil
  values _ h := nomatch h
  words _ h := nomatch h

theorem give (h : a.Sound names) {option : OptionName} {value : String} (ho : option ∈ names)
    (hv : (∃ check, option.role = .value check) ∨ option.role = .flag ∧ value = "")
    (hb : a.give option value = .ok b) : b.Sound names := by
  unfold Arguments.give at hb
  split at hb
  next => cases hb
  next hnew =>
    rw [has_iff] at hnew
    obtain ⟨_, hc, hb⟩ := bind_eq_ok_iff.mp hb
    cases hb
    have ht : option.role.Takes value := by
      rcases hv with ⟨check, hr⟩ | ⟨hr, hv⟩
      · rw [hr] at hc ⊢
        exact mapError_eq_ok_iff.mp hc
      · rw [hr]
        exact hv
    exact ⟨List.nodup_cons.mpr ⟨hnew, h.once⟩,
      List.forall_mem_cons.mpr ⟨⟨option, ho, rfl, ht⟩, h.values⟩, h.words⟩

theorem add (h : a.Sound names) {word : String} (hb : a.add word = .ok b) : b.Sound names := by
  unfold Arguments.add at hb
  split at hb
  next => cases hb
  next hword =>
    cases hb
    refine ⟨h.once, h.values, List.forall_mem_append.mpr ⟨h.words, ?_⟩⟩
    simpa using hword

theorem addAll (h : a.Sound names) {words : List String}
    (hb : words.foldlM Arguments.add a = .ok b) : b.Sound names := by
  induction words generalizing a with
  | nil =>
    cases hb
    exact h
  | cons word rest ih =>
    rw [List.foldlM_cons] at hb
    obtain ⟨a', ha, hb⟩ := bind_eq_ok_iff.mp hb
    exact ih (h.add ha) hb

end Sound

end Arguments

open Arguments (Sound)

/-- True of what has been read so far, and of an option whose value comes next. -/
structure Pending (names : List OptionName) (a : Arguments) (pending : Option OptionName) :
    Prop where
  sound : a.Sound names
  awaits : ∀ option ∈ pending, option ∈ names ∧ ∃ check, option.role = .value check

theorem Pending.settled (h : a.Sound names) : Pending names a none :=
  ⟨h, fun _ h => nomatch h⟩

theorem Pending.awaiting (h : a.Sound names) {option : OptionName} (ho : option ∈ names)
    {check : String → Except String Unit} (hr : option.role = .value check) :
    Pending names a (some option) := by
  refine ⟨h, ?_⟩
  rintro _ ⟨⟩
  exact ⟨ho, check, hr⟩

section
variable {pending : Option OptionName}

theorem Pending.given (h : a.Sound names) {option : OptionName} {value : String}
    (ho : option ∈ names)
    (hv : (∃ check, option.role = .value check) ∨ option.role = .flag ∧ value = "")
    (hb : (do return (← a.give option value, none)) = Except.ok (b, pending)) :
    Pending names b pending := by
  obtain ⟨a', ha, hb⟩ := bind_eq_ok_iff.mp hb
  cases hb
  exact .settled (h.give ho hv ha)

theorem pending_readLong (h : a.Sound names) {text : List Char}
    (hb : readLong names a text = .ok (b, pending)) : Pending names b pending := by
  unfold readLong at hb
  dsimp only at hb
  split at hb
  next => cases hb
  next option hfound =>
    have ho := List.mem_of_find?_eq_some hfound
    split at hb
    next hr _ => exact .given h ho (.inr ⟨hr, rfl⟩) hb
    next => cases hb
    next check hr _ =>
      cases hb
      exact .awaiting h ho hr
    next check _ value hr _ => exact .given h ho (.inl ⟨check, hr⟩) hb
    next => cases hb

theorem pending_readLetters (h : a.Sound names) {letters : List Char}
    (hb : readLetters names a letters = .ok (b, pending)) : Pending names b pending := by
  fun_induction readLetters names a letters with
  | case1 a =>
    cases hb
    exact .settled h
  | case2 => cases hb
  | case3 a letter option hfound rest hr ih =>
    obtain ⟨a', ha, hb⟩ := bind_eq_ok_iff.mp hb
    exact ih a' (h.give (List.mem_of_find?_eq_some hfound) (.inr ⟨hr, rfl⟩) ha) hb
  | case4 => cases hb
  | case5 a letter option hfound check hr =>
    cases hb
    exact .awaiting h (List.mem_of_find?_eq_some hfound) hr
  | case6 a letter option hfound check value hr | case7 a letter option hfound check value _ _ hr =>
    exact .given h (List.mem_of_find?_eq_some hfound) (.inl ⟨check, hr⟩) hb

theorem pending_readWord (h : a.Sound names) {word : String}
    (hb : readWord names a word = .ok (b, pending)) : Pending names b pending := by
  unfold readWord at hb
  split at hb
  · exact pending_readLong h hb
  · exact pending_readLetters h hb
  · obtain ⟨a', ha, hb⟩ := bind_eq_ok_iff.mp hb
    cases hb
    exact .settled (h.add ha)

theorem sound_readFrom {words : List String} (h : Pending names a pending)
    (hb : readFrom names a pending words = .ok b) : b.Sound names := by
  fun_induction readFrom names a pending words with
  | case1 a =>
    cases hb
    exact h.sound
  | case2 => cases hb
  | case3 => cases hb
  | case4 a option word rest _ ih =>
    obtain ⟨ho, hr⟩ := h.awaits option rfl
    obtain ⟨a', ha, hb⟩ := bind_eq_ok_iff.mp hb
    exact ih a' (.settled (h.sound.give ho (.inl hr) ha)) hb
  | case5 a rest => exact h.sound.addAll hb
  | case6 a word rest _ ih =>
    obtain ⟨⟨a', pending⟩, ha, hb⟩ := bind_eq_ok_iff.mp hb
    exact ih a' pending (pending_readWord h.sound ha) hb

end

theorem sound_readArguments {words : List String} (h : readArguments names words = .ok a) :
    a.Sound names :=
  sound_readFrom (.settled (.empty names)) h

end RiscvToolkit.Terminal
