import CategorySelection.Proofs.Action
import CategorySelection.Proofs.Json.Numbers
import CategorySelection.Proofs.Text.Parts
import CategorySelection.Settings
import Mathlib.Data.List.TakeWhile
/-!
The settings are in range, whatever the variables hold, and each of them is told by its own
variable.
-/

namespace CategorySelection

section Numerals

open CodePoint

theorem CodePoint.decimalDigit?_of_isAsciiDigit {c : CodePoint} (h : c.isAsciiDigit = true) :
    c.decimalDigit? = some (c.val - 0x30) := by
  have hfind : scriptZeros.find? (fun first => c.isBetween first (first + 9)) = some 0x30 :=
    List.find?_cons_of_pos h
  rw [decimalDigit?, hfind]
  rfl

namespace Numeral

variable {t : Text}

theorem digits?_of_digits (h : ∀ c ∈ t, isAsciiDigit c = true) :
    digits? t = some (t.map fun c => c.val - 0x30) := by
  induction t with
  | nil => rfl
  | cons c rest ih =>
    obtain ⟨hc,hrest⟩ := List.forall_mem_cons.mp h
    have hdigits := ih hrest
    rw [digits?] at hdigits ⊢
    rw [List.mapM_cons, decimalDigit?_of_isAsciiDigit hc, hdigits]
    rfl

theorem ofDigits_map (t : Text) :
    ofDigits (t.map fun c => c.val - 0x30) = Json.digitsValue t := List.foldl_map

/-- Digits are no blanks, so nothing is taken away from their ends. -/
theorem unpadded_of_digits (h : ∀ c ∈ t, isAsciiDigit c = true) : unpadded t = t := by
  have hnone {c : CodePoint} (hc : c.isAsciiDigit = true) : ¬isPadding c = true := by
    simp only [isAsciiDigit, isPadding, isBlank, isBetween, Bool.and_eq_true, Bool.or_eq_true,
      decide_eq_true_eq, beq_iff_eq, Fin.ext_iff] at hc ⊢
    omega
  have hkept (s : Text) (hs : ∀ c ∈ s, isAsciiDigit c = true) : s.dropWhile isPadding = s :=
    List.dropWhile_eq_self_iff.mpr fun hl => hnone (hs _ (List.getElem_mem hl))
  rw [unpadded, hkept t h, hkept t.reverse fun c hc => h c (List.mem_reverse.mp hc),
    List.reverse_reverse]

theorem signed_of_digits (h : ∀ c ∈ t, isAsciiDigit c = true) : signed t = (false,t) := by
  cases t with
  | nil => rfl
  | cons c rest =>
    have hc := h c List.mem_cons_self
    rw [signed, if_neg, if_neg]
    · rintro rfl
      exact absurd hc (by decide)
    · rintro rfl
      exact absurd hc (by decide)

theorem grouped?_of_digits (hne : t ≠ []) (h : ∀ c ∈ t, isAsciiDigit c = true) :
    grouped? t = some (t.map fun c => c.val - 0x30) := by
  have hsplit : Text.split (CodePoint.ofChar '_') t = [t] := by
    refine Text.split_of_not_mem fun hmem => ?_
    exact absurd (h _ hmem) (by decide)
  rw [grouped?, hsplit, List.any_cons, List.any_nil, Bool.or_false,
    if_neg (by rwa [List.isEmpty_iff]), List.mapM_cons, List.mapM_nil, digits?_of_digits h]
  exact congrArg some (List.append_nil _)

/-- The numeral of a number is read as that number, unless it is too long. -/
theorem int?_ofNat {n : Nat} (h : (Text.ofNat n).length ≤ maxDigits) :
    int? (Text.ofNat n) = some (n : Int) := by
  have hdigits := Text.isAsciiDigit_of_mem_ofNat n
  have hne : Text.ofNat n ≠ [] := List.ne_nil_of_length_pos (Text.length_ofNat_pos n)
  rw [int?, unpadded_of_digits hdigits, signed_of_digits hdigits]
  dsimp only
  rw [grouped?_of_digits hne hdigits]
  dsimp only
  rw [List.length_map, if_neg (Nat.not_lt.mpr h), ofDigits_map, Json.digitsValue_ofNat]
  rfl

end Numeral

end Numerals

namespace Settings

inductive Field
  | storagePath
  | storageKey
  | lockTimeout
  | logLevel
  | logJson
  | diagnosticTags
  | apiHost
  | apiPort
  | sessionTtl
  | maxSessions
  deriving Repr, DecidableEq

namespace Field

abbrev Value : Field → Type
  | .storagePath => Path
  | .lockTimeout => Binary64
  | .logJson => Bool
  | .apiPort | .sessionTtl | .maxSessions => Int
  | .storageKey | .logLevel | .diagnosticTags | .apiHost => Text

def value (s : Settings) : (field : Field) → field.Value
  | .storagePath => s.storagePath
  | .storageKey => s.storageKey
  | .lockTimeout => s.lockTimeout
  | .logLevel => s.logLevel
  | .logJson => s.logJson
  | .diagnosticTags => s.diagnosticTags
  | .apiHost => s.apiHost
  | .apiPort => s.apiPort
  | .sessionTtl => s.sessionTtl
  | .maxSessions => s.maxSessions

def source : Field → Text
  | .storagePath => variableName "STORAGE_PATH"
  | .storageKey => variableName "STORAGE_KEY"
  | .lockTimeout => variableName "LOCK_TIMEOUT"
  | .logLevel => variableName "LOG_LEVEL"
  | .logJson => variableName "LOG_JSON"
  | .diagnosticTags => variableName "DIAGNOSTIC_TAGS"
  | .apiHost => variableName "API_HOST"
  | .apiPort => variableName "API_PORT"
  | .sessionTtl => variableName "SESSION_TTL"
  | .maxSessions => variableName "MAX_SESSIONS"

end Field

structure InRange (s : Settings) : Prop where
  apiPort : 1 ≤ s.apiPort ∧ s.apiPort ≤ 65535
  sessionTtl : 1 ≤ s.sessionTtl
  maxSessions : 1 ≤ s.maxSessions
  logLevel : s.logLevel ∈ logLevels
  storageKey : s.storageKey ≠ [] ∧ s.storageKey.IsTrimmed

def tilde : CodePoint := '~'

/-- A path that starts at the home of a user for whom there is none: it is not known, or what is
known starts with a tilde itself. -/
def StartsNowhere (homes : Homes) (environment : Assoc Text) (p : Path) : Prop :=
  ∃ (user : Text) (rest : List Text), p = ⟨[],(tilde :: user) :: rest⟩ ∧
    ∀ home, home? homes environment user = some home → ∃ more : Text, home = tilde :: more

/-- The path of the file is given, and it starts at the home of a user for whom there is none. -/
def NamesNoHome (homes : Homes) (environment : Assoc Text) : Prop :=
  ∃ value, environment.get? Field.storagePath.source = some value ∧
    StartsNowhere homes environment (Path.ofText value)

def HasNoFile (file : Option Path) (d : Disk) : Prop :=
  ∀ path ∈ file, Disk.checkPath path = .ok () ∧ d.hasFile path ≠ .ok true

section Values

variable {complaint value name : Text} {default : Int}

/-- Whatever a variable holds, a number that is read from it fits if the default does. -/
theorem fits_readInt (fits : Int → Bool) (h : fits default = true) :
    fits (readInt fits complaint value name default).value = true := by
  rw [readInt]
  split
  · exact h
  · split_ifs with hfits
    · exact hfits
    · exact h

/-- The numeral of a number that fits is read as that number. -/
theorem readInt_ofNat {fits : Int → Bool} {n : Nat} (hn : fits n = true)
    (hlength : (Text.ofNat n).length ≤ Numeral.maxDigits) :
    (readInt fits complaint (Text.ofNat n) name default).value = n := by
  rw [readInt, Numeral.int?_ofNat hlength]
  dsimp only
  rw [if_pos hn]

theorem readPort_inRange (h : 1 ≤ default ∧ default ≤ 65535) :
    1 ≤ (readPort value name default).value ∧ (readPort value name default).value ≤ 65535 := by
  let fits (n : Int) : Bool := portRange.1 ≤ n && n ≤ portRange.2
  have hiff (n : Int) : fits n = true ↔ 1 ≤ n ∧ n ≤ 65535 :=
    Bool.and_eq_true_iff.trans (and_congr decide_eq_true_iff decide_eq_true_iff)
  exact (hiff _).mp (fits_readInt fits ((hiff default).mpr h))

/-- Whatever text it is given, a positive number is one. -/
theorem readPositive_pos (h : 1 ≤ default) : 1 ≤ (readPositive value name default).value :=
  of_decide_eq_true (fits_readInt (0 < ·) (decide_eq_true h))

/-- Whatever text it is given, the level of the log is one of the levels. -/
theorem mem_logLevels_readLogLevel (value : Text) : (readLogLevel value).value ∈ logLevels := by
  rw [readLogLevel]
  split_ifs with hlevel
  · exact hlevel
  · exact (by decide : defaultLogLevel ∈ logLevels)

/-- Whatever text it is given, the key has no blanks at its ends and is not empty. -/
theorem readStorageKey_trimmed (value : Text) :
    (readStorageKey value).value ≠ [] ∧ (readStorageKey value).value.IsTrimmed := by
  rw [readStorageKey]
  split_ifs with hempty
  · refine ⟨nofun,?_,?_⟩
    · rintro c ⟨⟩
      rfl
    · rintro c ⟨⟩
      rfl
  · exact ⟨fun hnil => hempty (List.isEmpty_iff.mpr hnil),Text.isTrimmed_trim value⟩

end Values

section Read

variable {σ : Type} {homes : Homes} {environment : Assoc Text}

def held (environment : Assoc Text) (field : Field) (default : Text) : Text :=
  (environment.get? field.source).getD default

def ofVariables (environment : Assoc Text) (storagePath : Path) : Settings where
  storagePath := storagePath
  storageKey := (readStorageKey (held environment .storageKey Catalog.defaultKey)).value
  lockTimeout := (readSeconds (held environment .lockTimeout "5.0") Field.lockTimeout.source
    Store.FileOptions.defaultPatience).value
  logLevel := (readLogLevel (held environment .logLevel defaultLogLevel)).value
  logJson := readFlag (held environment .logJson [])
  diagnosticTags := held environment .diagnosticTags []
  apiHost := held environment .apiHost "127.0.0.1"
  apiPort := (readPort (held environment .apiPort "8080") Field.apiPort.source 8080).value
  sessionTtl :=
    (readPositive (held environment .sessionTtl "3600") Field.sessionTtl.source 3600).value
  maxSessions :=
    (readPositive (held environment .maxSessions "256") Field.maxSessions.source 256).value

/-- Only the path can end the reading, and the others are read one by one. -/
theorem result_read (homes : Homes) (environment : Assoc Text) (s : σ) :
    (read homes environment s).result =
      (readStoragePath homes environment (held environment .storagePath [])).map
        (ofVariables environment) := by
  rw [read]
  change ((Action.ofExcept (readStoragePath homes environment
    (held environment .storagePath [])) >>= _ :
    Action σ Settings) s).result = _
  rw [Action.bind_apply, Action.ofExcept_apply]
  cases readStoragePath homes environment (held environment .storagePath []) <;> rfl

/-- The settings that variables give are in their ranges. -/
theorem inRange_ofVariables (environment : Assoc Text) (path : Path) :
    (ofVariables environment path).InRange where
  apiPort := readPort_inRange (by decide)
  sessionTtl := readPositive_pos (by decide)
  maxSessions := readPositive_pos (by decide)
  logLevel := mem_logLevels_readLogLevel _
  storageKey := readStorageKey_trimmed _

/-- Without a file the settings are those of the variables. -/
theorem result_load {file : Option Path} {d : Disk} (h : HasNoFile file d) :
    (load homes environment file d).result = (read homes environment d).result := by
  cases file with
  | none => rfl
  | some path =>
    obtain ⟨hcheck,hfile⟩ := h path rfl
    have hstart : Action.ofExcept (Disk.checkPath path) d = ⟨.ok (),d,[]⟩ := by
      rw [hcheck]
      rfl
    have hwith : withFile environment path d = ⟨.ok environment,d,[]⟩ := by
      rw [withFile, Action.bind_of_ok hstart, Action.bind_of_ok (Action.world_apply d)]
      rcases hkind : d.hasFile path with e | (_ | _)
      · rfl
      · rfl
      · exact absurd hkind hfile
    rw [load]
    dsimp only
    split_ifs
    · rfl
    · rw [Action.bind_of_ok hwith]

end Read

section Home

variable {homes : Homes} {environment environment' : Assoc Text} {p : Path} {value : Text}

theorem after?_tilde (t user : Text) : Text.after? "~" t = some user ↔ t = tilde :: user :=
  Text.after?_eq_some_iff _ _ _

/-- A path that starts with a tilde leads into the home of the user, who must have one that does not
start with a tilde. -/
theorem expandHome_tilde (user : Text) (rest : List Text) :
    expandHome homes environment ⟨[],(tilde :: user) :: rest⟩ =
      match home? homes environment user with
      | none => .error .noHome
      | some home =>
        if (Text.after? "~" home).isSome then .error .noHome
          else .ok ((Path.ofText home).under ⟨[],rest⟩) := rfl

theorem expandHome_of_startsNowhere (h : StartsNowhere homes environment p) :
    expandHome homes environment p = .error .noHome := by
  obtain ⟨user,rest,rfl,hnone⟩ := h
  rw [expandHome_tilde]
  cases hhome : home? homes environment user with
  | none => rfl
  | some home =>
    obtain ⟨more,rfl⟩ := hnone home hhome
    rfl

/-- Every other path is expanded: behind a tilde there must be a home that is known and does not
start with one itself. -/
theorem exists_expandHome (h : ¬StartsNowhere homes environment p) :
    ∃ path, expandHome homes environment p = .ok path := by
  rcases p with ⟨_ | ⟨c,root⟩,_ | ⟨first,rest⟩⟩
  · exact ⟨_,rfl⟩
  · cases huser : Text.after? "~" first with
    | none =>
      refine ⟨⟨[],first :: rest⟩,?_⟩
      rw [expandHome]
      dsimp only
      rw [huser]
    | some user =>
      obtain rfl := (after?_tilde first user).mp huser
      rw [expandHome_tilde]
      cases hhome : home? homes environment user with
      | none => exact absurd ⟨user,rest,rfl,fun home hknown => nomatch hhome.symm.trans hknown⟩ h
      | some home =>
        refine ⟨_,if_neg fun htilde => h ⟨user,rest,rfl,?_⟩⟩
        intro home' hknown
        obtain rfl := Option.some_inj.mp (hhome.symm.trans hknown)
        obtain ⟨more,hmore⟩ := Option.isSome_iff_exists.mp htilde
        exact ⟨more,(after?_tilde home more).mp hmore⟩
  · exact ⟨_,rfl⟩
  · exact ⟨_,rfl⟩

/-- Of the variables only that of the home matters for expanding a path. -/
theorem expandHome_congr (h : environment.get? "HOME" = environment'.get? "HOME") (p : Path) :
    expandHome homes environment p = expandHome homes environment' p := by
  have hhome (user : Text) : home? homes environment user = home? homes environment' user := by
    rw [home?, home?, h]
  simp only [expandHome, hhome]

theorem readStoragePath_congr (h : environment.get? "HOME" = environment'.get? "HOME")
    (value : Text) :
    readStoragePath homes environment value = readStoragePath homes environment' value := by
  rw [readStoragePath, readStoragePath, expandHome_congr h]

theorem not_startsNowhere_ofText_nil : ¬StartsNowhere homes environment (Path.ofText []) := by
  rintro ⟨user,rest,⟨⟩,_⟩

theorem readStoragePath_of_startsNowhere (h : StartsNowhere homes environment (Path.ofText value)) :
    readStoragePath homes environment value = .error .noHome := by
  have hvalue : ¬value.isEmpty = true := by
    intro hempty
    rw [List.isEmpty_iff.mp hempty] at h
    exact not_startsNowhere_ofText_nil h
  rw [readStoragePath, if_neg hvalue, expandHome_of_startsNowhere h]

theorem exists_readStoragePath (h : ¬StartsNowhere homes environment (Path.ofText value)) :
    ∃ path, readStoragePath homes environment value = .ok path := by
  rw [readStoragePath]
  split_ifs
  · exact ⟨_,rfl⟩
  · exact exists_expandHome h

/-- Where no path is given, the one that is read starts at no home. -/
theorem namesNoHome_iff (homes : Homes) (environment : Assoc Text) : NamesNoHome homes environment ↔
    StartsNowhere homes environment (Path.ofText (held environment .storagePath [])) := by
  rw [NamesNoHome, held]
  cases environment.get? Field.storagePath.source with
  | none =>
    refine iff_of_false ?_ not_startsNowhere_ofText_nil
    rintro ⟨value,⟨⟩,_⟩
  | some value => simp only [Option.some.injEq, exists_eq_left', Option.getD_some]

end Home

section Loaded

variable {homes : Homes} {environment environment' : Assoc Text} {file file' : Option Path}
    {d d' : Disk}

theorem result_load_of_namesNoHome (hfile : HasNoFile file d) (h : NamesNoHome homes environment) :
    (load homes environment file d).result = .error .noHome := by
  rw [result_load hfile, result_read, readStoragePath_of_startsNowhere ((namesNoHome_iff _ _).mp h)]
  rfl

/-- Unless the path starts at no home, the settings are loaded. -/
theorem exists_load (hfile : HasNoFile file d) (h : ¬NamesNoHome homes environment) :
    ∃ path, (load homes environment file d).result = .ok (ofVariables environment path) := by
  obtain ⟨path,hpath⟩ := exists_readStoragePath (mt (namesNoHome_iff homes environment).mpr h)
  refine ⟨path,?_⟩
  rw [result_load hfile, result_read, hpath]
  rfl

/-- Settings that are loaded are those of the variables over the path that is read. -/
theorem eq_ofVariables_of_load (hfile : HasNoFile file d) {s : Settings}
    (hs : (load homes environment file d).result = .ok s) :
    ∃ path, readStoragePath homes environment (held environment .storagePath []) = .ok path ∧
      s = ofVariables environment path := by
  rw [result_load hfile, result_read] at hs
  cases hpath : readStoragePath homes environment (held environment .storagePath []) with
  | error e =>
    rw [hpath] at hs
    cases hs
  | ok path =>
    rw [hpath] at hs
    exact ⟨path,rfl,(Except.ok.inj hs).symm⟩

/-- Of two environments that agree on the variable of a setting, both give the setting the same
value. -/
theorem value_ofVariables_congr {path path' : Path} {field : Field}
    (hsource : environment.get? field.source = environment'.get? field.source)
    (hpath : field = .storagePath → path = path') :
    field.value (ofVariables environment path) = field.value (ofVariables environment' path') := by
  cases field with
  | storagePath => exact hpath rfl
  | storageKey | lockTimeout | logLevel | logJson | diagnosticTags | apiHost | apiPort | sessionTtl
  | maxSessions =>
    simp only [Field.value, ofVariables, held, hsource]

/-- A setting is told by its own variable, and the path also by where the home of the user is. -/
theorem value_load_congr (hfile : HasNoFile file d) (hfile' : HasNoFile file' d') {s s' : Settings}
    (hs : (load homes environment file d).result = .ok s)
    (hs' : (load homes environment' file' d').result = .ok s') {field : Field}
    (hsource : environment.get? field.source = environment'.get? field.source)
    (hhome : field = .storagePath → environment.get? "HOME" = environment'.get? "HOME") :
    field.value s = field.value s' := by
  obtain ⟨path,hpath,rfl⟩ := eq_ofVariables_of_load hfile hs
  obtain ⟨path',hpath',rfl⟩ := eq_ofVariables_of_load hfile' hs'
  refine value_ofVariables_congr hsource ?_
  rintro rfl
  have hheld : held environment .storagePath [] = held environment' .storagePath [] := by
    rw [held, held, hsource]
  rw [hheld, readStoragePath_congr (hhome rfl), hpath'] at hpath
  exact (Except.ok.inj hpath).symm

section Numeral

variable {n : Nat} (hlength : (Text.ofNat n).length ≤ 4300) (path : Path)
include hlength

theorem apiPort_of_numeral (hn : 1 ≤ n ∧ n ≤ 65535)
    (h : environment.get? Field.apiPort.source = some (Text.ofNat n)) :
    (ofVariables environment path).apiPort = n := by
  have hfits : (decide (portRange.1 ≤ (n : Int)) && decide ((n : Int) ≤ portRange.2)) = true := by
    rw [portRange, Bool.and_eq_true, decide_eq_true_eq, decide_eq_true_eq]
    omega
  simp only [ofVariables, held, h, Option.getD_some]
  exact readInt_ofNat hfits hlength

theorem readPositive_ofNat {name : Text} {default : Int} (hn : 1 ≤ n) :
    (readPositive (Text.ofNat n) name default).value = n := by
  have hfits : decide (0 < (n : Int)) = true := decide_eq_true (by omega)
  exact readInt_ofNat hfits hlength

theorem sessionTtl_of_numeral (hn : 1 ≤ n)
    (h : environment.get? Field.sessionTtl.source = some (Text.ofNat n)) :
    (ofVariables environment path).sessionTtl = n := by
  simp only [ofVariables, held, h, Option.getD_some]
  exact readPositive_ofNat hlength hn

theorem maxSessions_of_numeral (hn : 1 ≤ n)
    (h : environment.get? Field.maxSessions.source = some (Text.ofNat n)) :
    (ofVariables environment path).maxSessions = n := by
  simp only [ofVariables, held, h, Option.getD_some]
  exact readPositive_ofNat hlength hn

end Numeral

/-- Whatever the variables hold, and with no file of variables there, the settings are loaded unless
the path of the catalog starts at a home that there is none of; then this is what the loading ends
with. The settings are in their ranges, and a number in the range of its setting is set by its
numeral of up to 4300 digits. A setting is told by its own variable, the path by it and the home of
the user: whatever else the variables hold makes no difference. -/
theorem load_in_range (homes : Homes) (environment : Assoc Text) {file : Option Path} {d : Disk}
    (hfile : HasNoFile file d) :
    ((load homes environment file d).result = .error .noHome ∧ NamesNoHome homes environment ∨
      ∃ s, (load homes environment file d).result = .ok s ∧ ¬NamesNoHome homes environment ∧
        s.InRange ∧
        ∀ n : Nat, 1 ≤ n → (Text.ofNat n).length ≤ 4300 →
          (n ≤ 65535 → environment.get? Field.apiPort.source = some (Text.ofNat n) →
            s.apiPort = n) ∧
          (environment.get? Field.sessionTtl.source = some (Text.ofNat n) → s.sessionTtl = n) ∧
          (environment.get? Field.maxSessions.source = some (Text.ofNat n) → s.maxSessions = n)) ∧
      ∀ (environment' : Assoc Text) (file' : Option Path) (d' : Disk), HasNoFile file' d' → ∀ s s',
        (load homes environment file d).result = .ok s →
        (load homes environment' file' d').result = .ok s' →
        ∀ field : Field, environment.get? field.source = environment'.get? field.source →
          (field = .storagePath → environment.get? "HOME" = environment'.get? "HOME") →
          field.value s = field.value s' := by
  refine ⟨?_,fun _ _ _ hfile' _ _ hs hs' _ hsource hhome => value_load_congr hfile hfile' hs hs'
    hsource hhome⟩
  by_cases hnames : NamesNoHome homes environment
  · exact Or.inl ⟨result_load_of_namesNoHome hfile hnames,hnames⟩
  · obtain ⟨path,hload⟩ := exists_load hfile hnames
    refine Or.inr ⟨_,hload,hnames,inRange_ofVariables environment path,
      fun n hn hlength => ⟨?_,?_,?_⟩⟩
    · exact fun hport hsource => apiPort_of_numeral hlength path ⟨hn,hport⟩ hsource
    · exact fun hsource => sessionTtl_of_numeral hlength path hn hsource
    · exact fun hsource => maxSessions_of_numeral hlength path hn hsource

/-- A file of variables that is not there, a time to live that is set as said, and other variables
with values that are all refused, beside an environment with none of these. -/
theorem load_in_range_beside_refused :
    let homes : Homes := [([],"/home/a")]
    let environment : Assoc Text :=
      [(Field.apiPort.source,"70000"),(Field.sessionTtl.source,Text.ofNat 86400),
      (Field.maxSessions.source,"-1"),(Field.logLevel.source,"loud"),(Field.storageKey.source," ")]
    let environment' : Assoc Text :=
      [(Field.sessionTtl.source,Text.ofNat 86400),(Field.lockTimeout.source,"nan")]
    HasNoFile (some ⟨[],[".env"]⟩) {} ∧ HasNoFile none {} ∧
      environment.get? Field.sessionTtl.source = environment'.get? Field.sessionTtl.source ∧
      ∃ s s', (load homes environment (some ⟨[],[".env"]⟩) {}).result = .ok s ∧
        (load homes environment' none {}).result = .ok s' ∧ s.InRange ∧ s.sessionTtl = 86400 ∧
        Field.sessionTtl.value s = Field.sessionTtl.value s' := by
  intro homes environment environment'
  have hfile : HasNoFile (some ⟨[],[".env"]⟩) {} := by
    rintro path ⟨⟩
    exact ⟨rfl,nofun⟩
  have hnone : HasNoFile none {} := nofun
  have hsource : environment.get? Field.sessionTtl.source = some (Text.ofNat 86400) := by
    decide +kernel
  have hsource' : environment'.get? Field.sessionTtl.source = some (Text.ofNat 86400) := by
    decide +kernel
  have hlength : (Text.ofNat 86400).length ≤ 4300 := by decide +kernel
  have hpath {known : Assoc Text} (h : known.get? Field.storagePath.source = none) :
      ¬NamesNoHome homes known := by
    rintro ⟨value,hvalue,_⟩
    rw [h] at hvalue
    cases hvalue
  obtain ⟨⟨_,hnames⟩ | ⟨s,hs,_,hrange,hnumeral⟩,hsame⟩ := load_in_range homes environment hfile
  · exact absurd hnames (hpath (by decide +kernel))
  obtain ⟨⟨_,hnames⟩ | ⟨s',hs',_⟩,_⟩ := load_in_range homes environment' hnone
  · exact absurd hnames (hpath (by decide +kernel))
  have hagree := hsource.trans hsource'.symm
  exact ⟨hfile,hnone,hagree,s,s',hs,hs',hrange,(hnumeral 86400 (by decide) hlength).2.1 hsource,
    hsame environment' none {} hnone s s' hs hs' .sessionTtl hagree nofun⟩

end Loaded

end Settings

end CategorySelection
