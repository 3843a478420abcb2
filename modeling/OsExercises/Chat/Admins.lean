import OsExercises.Chat.Clients
import OsExercises.Lib.Atoi

/-!
# The admins of the chat server

`config_init` and `server_user_is_admin` of `src/exercise08/task_1/server.c`. The search has a fixed number
of iterations and leaves at the first entry that *differs* from the name, so it answers `true` for every
stranger, and for a name that is on the command line it stays inside of the entries that are set only if
another one of them differs from it (`looksUp_iff`).
-/

namespace OsExercises.Chat

/-- `is_valid_port` -/
def isValidPort (port : Int) : Bool := port ≥ 1024 ∧ port ≤ 49151

/-- The arguments of the server: a port and one to five names. -/
structure CommandLine where
  port : Bytes
  names : List Bytes
  ne_nil : names ≠ []
  length_le : names.length ≤ 5

/-- The loop of `config_init`, for the arguments from the one with the index `i` on. -/
def populate : List Bytes → Nat → List Bytes → List Bytes
  | [], _, admins => admins
  | arg :: args, i, admins => populate args (i + 1) (admins.set (i - 2) arg)

theorem populate_eq {args admins : List Bytes} {k : Nat} (h : k + args.length ≤ admins.length) :
    populate args (k + 2) admins = admins.take k ++ args ++ admins.drop (k + args.length) := by
  induction args generalizing k admins with
  | nil => simp [populate]
  | cons arg args ih =>
    rw [List.length_cons] at h
    have hk : k < admins.length := by omega
    have htake : (admins.set k arg).take (k + 1) = admins.take k ++ [arg] := by
      rw [List.take_set, List.take_succ_eq_append_getElem hk, List.set_append_right _ _ (by simp)]
      simp [Nat.min_eq_left hk.le]
    have hdrop : (admins.set k arg).drop (k + 1 + args.length) = admins.drop (k + (args.length + 1)) := by
      rw [List.drop_set_of_lt (by omega), Nat.add_right_comm k 1, Nat.add_assoc k]
    have hle : k + 1 + args.length ≤ (admins.set k arg).length := by
      rw [List.length_set]
      omega
    rw [populate, Nat.add_sub_cancel, Nat.add_right_comm k 2 1, ih hle, htake, hdrop, List.length_cons,
      ← List.append_cons]

/-- The array `admins` of a `config_t`. -/
abbrev Entries := { admins : List Bytes // admins.length = 5 }

theorem CommandLine.populate_names (line : CommandLine) (admins : Entries) :
    populate line.names 2 admins = line.names ++ admins.1.drop line.names.length := by
  have hlength := line.length_le
  rw [populate_eq (k := 0) (by rw [admins.2]; omega), List.take_zero, List.nil_append, Nat.zero_add]

theorem CommandLine.length_populate (line : CommandLine) (admins : Entries) :
    (populate line.names 2 admins).length = 5 := by
  rw [line.populate_names, List.length_append, List.length_drop, admins.2]
  exact Nat.add_sub_of_le line.length_le

/-- `none` if the port is not valid or there is no file descriptor. `fd` is what `init_server_fd` returns,
and `admins` what `malloc` leaves in the array. -/
def configInit (line : CommandLine) (fd : Int) (admins : Entries) : Option Config :=
  (atoi? line.port).bind fun port =>
    if isValidPort port = true ∧ ¬ fd < 0 then
      some {
        given := line.names
        admins := populate line.names 2 admins
        given_ne_nil := line.ne_nil
        given_admins := line.populate_names admins ▸ List.prefix_append _ _
        length_admins := line.length_populate admins }
    else none

theorem given_of_configInit {line : CommandLine} {fd : Int} {admins : Entries} {config : Config}
    (h : configInit line fd admins = some config) : config.given = line.names := by
  obtain ⟨port, -, h⟩ := Option.bind_eq_some_iff.mp h
  split_ifs at h
  cases h
  rfl

/-! ### The entries that are compared -/

section Comparisons

variable {name : Bytes} {admins given : List Bytes}

/-- The search stays inside of the first entries exactly if one of them stops it, or there are no others. -/
theorem comparisons_append_le_iff : comparisons name (given ++ admins) ≤ given.length ↔
    (∃ admin ∈ given, admin ≠ name) ∨ admins = [] := by
  induction given with
  | nil =>
    cases admins with
    | nil => simp [comparisons]
    | cons admin admins =>
      rw [List.nil_append, comparisons]
      split_ifs <;> simp
  | cons admin given ih =>
    rw [List.cons_append, comparisons, List.length_cons, List.exists_mem_cons_iff]
    split_ifs with hne
    · exact iff_of_true (Nat.le_add_left 1 _) (Or.inl (Or.inl hne))
    · rw [Nat.add_le_add_iff_right, ih, or_iff_right hne]

end Comparisons

/-- Exactly the names of the command line are found, and the name is compared only with them. -/
def LooksUp (config : Config) (name : Bytes) : Prop :=
  (serverUserIsAdmin name config.admins = true ↔ name ∈ config.given) ∧
    comparisons name config.admins ≤ config.given.length

theorem Config.looksUp_iff_given (config : Config) (name : Bytes) :
    LooksUp config name ↔ name ∈ config.given ∧ ∃ admin ∈ config.given, admin ≠ name := by
  obtain ⟨rest, hrest⟩ := config.given_admins
  unfold LooksUp
  rw [← hrest, serverUserIsAdmin_iff, comparisons_append_le_iff]
  constructor
  · rintro ⟨hfound, hother | rfl⟩
    · obtain ⟨admin, hadmin, hne⟩ := hother
      exact ⟨hfound.mp ⟨admin, List.mem_append_left _ hadmin, hne⟩, admin, hadmin, hne⟩
    · rw [List.append_nil] at hfound
      by_cases hname : name ∈ config.given
      · exact ⟨hname, hfound.mpr hname⟩
      · -- An entry that is not the name stops the search.
        obtain ⟨admin, hadmin⟩ := List.exists_mem_of_ne_nil _ config.given_ne_nil
        have hne : admin ≠ name := fun heq => hname (heq ▸ hadmin)
        exact absurd (hfound.mp ⟨admin, hadmin, hne⟩) hname
  · rintro ⟨hname, admin, hadmin, hne⟩
    exact ⟨iff_of_true ⟨admin, List.mem_append_left _ hadmin, hne⟩ hname, Or.inl ⟨admin, hadmin, hne⟩⟩

/-- The lookup is right exactly for a name of the command line that is not the only one there. -/
theorem looksUp_iff (line : CommandLine) (fd : Int) (admins : Entries) (config : Config) (name : Bytes)
    (h : configInit line fd admins = some config) :
    LooksUp config name ↔ name ∈ line.names ∧ ∃ admin ∈ line.names, admin ≠ name := by
  rw [config.looksUp_iff_given, given_of_configInit h]

/-- The port 5000, and the admins `"a"` and `"b"`. -/
def twoAdmins : CommandLine where
  port := [53, 48, 48, 48]
  names := [[97], [98]]
  ne_nil := List.cons_ne_nil _ _
  length_le := Nat.le_of_ble_eq_true rfl

/-- The pointers behind the names are wild; here they happen to lead to empty strings. -/
def emptyEntries : Entries := ⟨List.replicate 5 [], rfl⟩

theorem exists_config_twoAdmins : ∃ config, configInit twoAdmins 3 emptyEntries = some config :=
  Option.isSome_iff_exists.mp (by decide +kernel)

theorem looksUp_twoAdmins : ∃ config, configInit twoAdmins 3 emptyEntries = some config ∧
    LooksUp config [97] ∧ LooksUp config [98] ∧ ¬ LooksUp config [99] := by
  obtain ⟨config, hconfig⟩ := exists_config_twoAdmins
  refine ⟨config, hconfig, ?_, ?_, fun hlooks => ?_⟩
  · exact (looksUp_iff twoAdmins 3 emptyEntries config [97] hconfig).mpr (by decide)
  · exact (looksUp_iff twoAdmins 3 emptyEntries config [98] hconfig).mpr (by decide)
  · exact absurd ((looksUp_iff twoAdmins 3 emptyEntries config [99] hconfig).mp hlooks).1 (by decide)

theorem not_looksUp : ¬ ∀ (line : CommandLine) (fd : Int) (admins : Entries) (config : Config) (name : Bytes),
    configInit line fd admins = some config → LooksUp config name := by
  intro h
  obtain ⟨config, hconfig⟩ := exists_config_twoAdmins
  have hlooks := (config.looksUp_iff_given [99]).mp (h twoAdmins 3 emptyEntries config [99] hconfig)
  rw [given_of_configInit hconfig] at hlooks
  exact absurd hlooks.1 (by decide)

end OsExercises.Chat
