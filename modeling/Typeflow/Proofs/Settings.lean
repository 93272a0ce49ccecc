import Mathlib.Data.List.Pairwise
import Typeflow.Options
import Typeflow.Proofs.Offers.Paths

/-! What settings do. Each one that is accepted gives a value to one field, and the last one for a field
decides; the first that is rejected ends the reading. -/
namespace Typeflow

private theorem Text.after?_eq_some {start text value : String} : after? start text = some value ↔ text = start ++ value := by
  rw [after?, Option.map_eq_some_iff, chars_eq, chars_eq]
  constructor
  · rintro ⟨rest, split, rfl⟩
    rw [← String.toList_inj, restAfter_eq_some.1 split, String.toList_append, String.toList_ofList]
  · rintro rfl
    exact ⟨value.toList, restAfter_eq_some.2 String.toList_append, String.ofList_toList⟩

/-- What a setting is about. -/
inductive Field where
  | language
  | builtins
  | limit (limit : Limit)
  | resourceLoader
  | log
  | strictHost
  deriving DecidableEq

/-- A value for a field. -/
inductive Assignment where
  | language (language : Language)
  | builtins (name : String)
  | limit (limit : Limit) (count : Nat)
  | resourceLoader (name : String)
  | log (switches : LogSwitches)
  | strictHost (on : Bool)

def Assignment.field : Assignment → Field
  | .language _ => .language
  | .builtins _ => .builtins
  | .limit which _ => .limit which
  | .resourceLoader _ => .resourceLoader
  | .log _ => .log
  | .strictHost _ => .strictHost

def Limits.get (limits : Limits) : Limit → Nat
  | .variableTypes => limits.variableTypes
  | .returnTypes => limits.returnTypes
  | .memberTypes => limits.memberTypes

@[simp] theorem Limits.get_set (limits : Limits) (count : Nat) (limit other : Limit) :
    (limits.set count limit).get other = if limit = other then count else limits.get other := by
  cases limit <;> cases other <;> rfl

namespace Options

def read (options : Options) : Field → Assignment
  | .language => .language options.language
  | .builtins => .builtins options.builtins
  | .limit limit => .limit limit (options.limits.get limit)
  | .resourceLoader => .resourceLoader options.resourceLoader
  | .log => .log options.log
  | .strictHost => .strictHost options.strictHost

def assign (options : Options) : Assignment → Options
  | .language language => { options with language }
  | .builtins name => { options with builtins := name }
  | .limit limit count => { options with limits := options.limits.set count limit }
  | .resourceLoader name => { options with resourceLoader := name }
  | .log switches => { options with log := switches }
  | .strictHost on => { options with strictHost := on }

private theorem read_assign (options : Options) (a : Assignment) (field : Field) :
    (options.assign a).read field = if a.field = field then a else options.read field := by
  cases a <;> cases field <;> simp [assign, read, Assignment.field]
  split <;> simp_all

end Options

/-- A name for one category of the log, or for all of them. -/
def IsCategory (name : String) : Prop := name = "all" ∨ ∃ category : LogCategory, name = category.label

def Mentions (names : List String) (category : LogCategory) : Prop := "all" ∈ names ∨ category.label ∈ names

/-- The setting is well formed and gives the field this value. -/
inductive Gives : String → Assignment → Prop
  | older : Gives "--lang=2" (.language .v2)
  | newer : Gives "--lang=3" (.language .v3)
  | builtins (name : String) : Gives ("--builtins=" ++ name) (.builtins name)
  | limit (limit : Limit) {text : String} {count : Nat} (counts : Text.readCount text = .ok count) :
    Gives (limit.flag ++ text) (.limit limit count)
  | resourceLoader (name : String) : Gives ("--resource-loader=" ++ name) (.resourceLoader name)
  | log {list : String} {switches : LogSwitches} (known : ∀ name ∈ Text.items ',' list, IsCategory name)
    (on : ∀ category, switches.isOn category = true ↔ Mentions (Text.items ',' list) category) :
    Gives ("--log=" ++ list) (.log switches)
  | strict : Gives "--strict-host" (.strictHost true)
  | lenient : Gives "--lenient-host" (.strictHost false)

def flags : List String :=
  ["--lang=", "--builtins=", "--max-variable-types=", "--max-return-types=", "--max-member-types=",
    "--resource-loader=", "--log="]

/-- The setting has a fault, which the message tells. -/
inductive Faulty : String → String → Prop
  | language {value : String} (older : value ≠ "2") (newer : value ≠ "3") :
    Faulty ("--lang=" ++ value) "invalid value for --lang= expected 2 or 3"
  | count (limit : Limit) {text : String} {why : Text.CountError} (fails : Text.readCount text = .error why) :
    Faulty (limit.flag ++ text) ("invalid value for " ++ limit.flag ++ " " ++ why.message)
  | category {list name : String} {known more : List String} (items : Text.items ',' list = known ++ name :: more)
    (fine : ∀ other ∈ known, IsCategory other) (unknown : ¬ IsCategory name) :
    Faulty ("--log=" ++ list) ("unknown log category '" ++ name ++ "'")
  | unknown {text : String} (plain : ∀ flag ∈ flags, ∀ value, text ≠ flag ++ value)
    (strict : text ≠ "--strict-host") (lenient : text ≠ "--lenient-host") :
    Faulty text ("unknown option '" ++ text ++ "'")

/-- What a setting with a fault leaves of the options. A list of categories has taken effect up to the fault. -/
structure Leaves (text : String) (before after : Options) : Prop where
  others : ∀ field, field ≠ .log → after.read field = before.read field
  whole : (∀ list, text ≠ "--log=" ++ list) → after = before
  log : ∀ list, text = "--log=" ++ list → ∃ known name more, Text.items ',' list = known ++ name :: more ∧
    (∀ other ∈ known, IsCategory other) ∧ ¬ IsCategory name ∧
    ∀ category, after.log.isOn category = true ↔ Mentions known category

section Log

variable {names : List String} {switches : LogSwitches}

private theorem LogSwitches.ext_isOn {a b : LogSwitches} (h : ∀ category, a.isOn category = true ↔ b.isOn category = true) :
    a = b := by
  obtain ⟨modules, units, specializations, host⟩ := a
  have same := fun category => Bool.eq_iff_iff.2 (h category)
  rw [LogSwitches.mk.injEq]
  exact ⟨same .modules, same .units, same .specializations, same .host⟩

private theorem LogCategory.ofLabel?_label (category : LogCategory) : ofLabel? category.label = some category := by
  cases category <;> decide

private theorem LogCategory.label_of_ofLabel? {name : String} {category : LogCategory} (h : ofLabel? name = some category) :
    category.label = name := by
  simpa using List.find?_some h

private theorem LogSwitches.isOn_turn (switches : LogSwitches) (category other : LogCategory) :
    (switches.turn true category).isOn other = true ↔ switches.isOn other = true ∨ other = category := by
  cases category <;> cases other <;> simp [turn, isOn]

private theorem LogSwitches.turnOn_all (switches : LogSwitches) (rest : List String) :
    switches.turnOn ("all" :: rest) = every.turnOn rest := rfl

private theorem LogSwitches.turnOn_label (switches : LogSwitches) (category : LogCategory) (rest : List String) :
    switches.turnOn (category.label :: rest) = (switches.turn true category).turnOn rest := by
  rw [turnOn, LogCategory.ofLabel?_label]

private theorem LogSwitches.turnOn_known (known : ∀ name ∈ names, IsCategory name) (switches : LogSwitches) :
    (switches.turnOn names).2 = Option.none ∧
      ∀ category, (switches.turnOn names).1.isOn category = true ↔
        switches.isOn category = true ∨ Mentions names category := by
  induction names generalizing switches with
  | nil => simp [turnOn, Mentions]
  | cons name rest ih =>
    obtain ⟨rfl | ⟨category, rfl⟩, others⟩ := List.forall_mem_cons.1 known
    · have on : ∀ category, every.isOn category = true := fun category => by cases category <;> rfl
      refine ⟨(ih others every).1, fun category => ?_⟩
      rw [turnOn_all, (ih others every).2 category]
      simp [on, Mentions]
    · have labels : ∀ other : LogCategory, other.label = category.label ↔ other = category := fun other => by
        cases other <;> cases category <;> decide
      have apart : "all" ≠ category.label := by cases category <;> decide
      rw [turnOn_label]
      refine ⟨(ih others _).1, fun other => ?_⟩
      rw [(ih others _).2 other, isOn_turn]
      simp only [Mentions, List.mem_cons, apart, labels, false_or]
      tauto

private theorem LogSwitches.turnOn_unknown {known : List String} {name : String}
    (fine : ∀ other ∈ known, IsCategory other) (unknown : ¬ IsCategory name) (more : List String)
    (switches : LogSwitches) :
    switches.turnOn (known ++ name :: more) = ((switches.turnOn known).1, some (.unknownCategory name)) := by
  induction known generalizing switches with
  | nil =>
    have none : LogCategory.ofLabel? name = Option.none := by
      cases found : LogCategory.ofLabel? name with
      | none => rfl
      | some category => exact absurd (.inr ⟨category, (LogCategory.label_of_ofLabel? found).symm⟩) unknown
    simp only [List.nil_append, turnOn, none]
    exact if_neg fun all => unknown (.inl all)
  | cons first rest ih =>
    obtain ⟨rfl | ⟨category, rfl⟩, others⟩ := List.forall_mem_cons.1 fine
    · rw [List.cons_append, turnOn_all, turnOn_all, ih others]
    · rw [List.cons_append, turnOn_label, turnOn_label, ih others]

/-- A list of names has a first one that is no category, or there is none. -/
theorem known_or_unknown (names : List String) : (∀ name ∈ names, IsCategory name) ∨
    ∃ known name more, names = known ++ name :: more ∧ (∀ other ∈ known, IsCategory other) ∧ ¬ IsCategory name := by
  classical
  cases found : names.find? fun name => ¬ IsCategory name with
  | none => exact .inl (by simpa using found)
  | some name =>
    obtain ⟨unknown, known, more, split, fine⟩ := List.find?_eq_some_iff_append.1 found
    exact .inr ⟨known, name, more, split, by simpa using fine, by simpa using unknown⟩

end Log

section Forms

def Agree (form other : String × (String → Setting)) : Prop :=
  ∀ value rest, form.1 ++ value = other.1 ++ rest → form.2 value = other.2 rest

private theorem flags_eq : Setting.forms.map (·.1) = flags := rfl

/-- No flag begins with another. -/
theorem flags_apart : flags.Pairwise fun a b => ¬ a.toList <+: b.toList ∧ ¬ b.toList <+: a.toList := by
  decide

private theorem agree_of_mem {form other : String × (String → Setting)} (hf : form ∈ Setting.forms)
    (ho : other ∈ Setting.forms) : Agree form other := by
  have symm : Std.Symm Agree := ⟨fun form other h value rest same => (h rest value same.symm).symm⟩
  refine List.Pairwise.forall_of_forall ?_ ?_ hf ho
  · intro form _ value rest same
    rw [(String.append_right_inj form.1).1 same]
  · have apart := flags_apart
    rw [← flags_eq, List.pairwise_map] at apart
    refine apart.imp fun {a b} h value rest same => ?_
    have lists := congrArg String.toList same
    rw [String.toList_append, String.toList_append] at lists
    rcases List.prefix_or_prefix_of_prefix (List.prefix_append a.1.toList value.toList)
      (lists ▸ List.prefix_append b.1.toList rest.toList) with first | second
    · exact absurd first h.1
    · exact absurd second h.2

private theorem ofText_cases (text : String) :
    (∃ form ∈ Setting.forms, ∃ value, text = form.1 ++ value ∧ Setting.ofText text = form.2 value) ∨
      (∀ flag ∈ flags, ∀ value, text ≠ flag ++ value) ∧
        Setting.ofText text = if text = "--strict-host" then .strictHost true
          else if text = "--lenient-host" then .strictHost false else .unknown text := by
  rw [Setting.ofText]
  cases found : Setting.forms.findSome? fun form => (Text.after? form.1 text).map form.2 with
  | some setting =>
    obtain ⟨form, mem, read⟩ := List.exists_of_findSome?_eq_some found
    obtain ⟨value, split, rfl⟩ := Option.map_eq_some_iff.1 read
    exact .inl ⟨form, mem, value, Text.after?_eq_some.1 split, rfl⟩
  | none =>
    refine .inr ⟨fun flag mem value same => ?_, rfl⟩
    obtain ⟨form, there, rfl⟩ := List.mem_map.1 (flags_eq ▸ mem)
    have missed := List.findSome?_eq_none_iff.1 found form there
    rw [Text.after?_eq_some.2 same] at missed
    cases missed

private theorem ofText_of_mem {form : String × (String → Setting)} (mem : form ∈ Setting.forms) (value : String) :
    Setting.ofText (form.1 ++ value) = form.2 value := by
  rcases ofText_cases (form.1 ++ value) with ⟨other, there, rest, same, read⟩ | ⟨none, -⟩
  · rw [read]
    exact (agree_of_mem mem there value rest same).symm
  · exact absurd rfl (none form.1 (flags_eq ▸ List.mem_map_of_mem mem) value)

private theorem mem_forms_log : ("--log=", fun list => Setting.log (Text.items ',' list)) ∈ Setting.forms := by
  simp [Setting.forms]

private theorem mem_forms_builtins : ("--builtins=", Setting.builtins) ∈ Setting.forms := by
  simp [Setting.forms]

private theorem mem_forms_resourceLoader : ("--resource-loader=", Setting.resourceLoader) ∈ Setting.forms := by
  simp [Setting.forms]

private theorem mem_forms_limit (limit : Limit) : (limit.flag, Setting.limit limit) ∈ Setting.forms := by
  cases limit <;> simp [Setting.forms]

private theorem ofText_log (list : String) : Setting.ofText ("--log=" ++ list) = .log (Text.items ',' list) :=
  ofText_of_mem mem_forms_log list

/-- What is read as something else is no list of categories. -/
theorem ne_log {form : String × (String → Setting)} (mem : form ∈ Setting.forms) {value : String}
    (other : ∀ names, form.2 value ≠ .log names) (list : String) : form.1 ++ value ≠ "--log=" ++ list :=
  fun same => other _ (agree_of_mem mem mem_forms_log value list same)

end Forms

section Apply

variable {text : String} {a : Assignment} {options : Options}

namespace Options

/-- A setting that gives a value to a field assigns it. -/
theorem apply_of_gives (h : Gives text a) (options : Options) :
    options.apply (Setting.ofText text) = (options.assign a, none) := by
  cases h with
  | older | newer | strict | lenient => rfl
  | builtins name =>
    rw [ofText_of_mem mem_forms_builtins]
    rfl
  | limit limit counts =>
    rw [ofText_of_mem (mem_forms_limit limit), apply, counts]
    rfl
  | resourceLoader name =>
    rw [ofText_of_mem mem_forms_resourceLoader]
    rfl
  | @log list switches known on =>
    obtain ⟨fine, turned⟩ := LogSwitches.turnOn_known known .none
    have same : (LogSwitches.none.turnOn (Text.items ',' list)).1 = switches :=
      LogSwitches.ext_isOn fun category => by
        rw [turned category, on category, or_iff_right]
        cases category <;> decide
    rw [ofText_log, apply]
    simp only [fine, same, assign]

private theorem leaves_refl (other : ∀ list, text ≠ "--log=" ++ list) (options : Options) : Leaves text options options :=
  ⟨fun _ _ => rfl, fun _ => rfl, fun list same => absurd same (other list)⟩

private theorem apply_limit (limit : Limit) (count : String) (options : Options) :
    (∃ a, Gives (limit.flag ++ count) a) ∨ ∃ left error,
      options.apply (.limit limit count) = (left, some error) ∧ Faulty (limit.flag ++ count) error.message ∧
        Leaves (limit.flag ++ count) options left := by
  cases counts : Text.readCount count with
  | ok n => exact .inl ⟨_, .limit limit counts⟩
  | error why =>
    refine .inr ⟨options, .badCount limit why, by rw [apply, counts], .count limit counts, ?_⟩
    exact leaves_refl (ne_log (mem_forms_limit limit) fun _ => Setting.noConfusion) options

private theorem apply_log (list : String) (options : Options) :
    (∃ a, Gives ("--log=" ++ list) a) ∨ ∃ left error,
      options.apply (.log (Text.items ',' list)) = (left, some error) ∧ Faulty ("--log=" ++ list) error.message ∧
        Leaves ("--log=" ++ list) options left := by
  have start : ∀ category, LogSwitches.none.isOn category = true ↔ False := fun category => by
    cases category <;> decide
  rcases known_or_unknown (Text.items ',' list) with known | ⟨known, name, more, split, fine, unknown⟩
  · refine .inl ⟨.log (LogSwitches.none.turnOn (Text.items ',' list)).1, .log known fun category => ?_⟩
    rw [(LogSwitches.turnOn_known known .none).2 category, start, false_or]
  · refine .inr ⟨{ options with log := (LogSwitches.none.turnOn known).1 }, .unknownCategory name, ?_,
      .category split fine unknown, ?_, fun other => absurd rfl (other list), fun other same => ?_⟩
    · simp only [apply, split, LogSwitches.turnOn_unknown fine unknown]
    · intro field other
      cases field <;> first | rfl | exact absurd rfl other
    · obtain rfl := (String.append_right_inj "--log=").1 same
      refine ⟨known, name, more, split, fine, unknown, fun category => ?_⟩
      rw [(LogSwitches.turnOn_known fine .none).2 category, start, false_or]

/-- A setting gives a value to a field, or it has a fault. -/
theorem apply_cases (text : String) (options : Options) :
    (∃ a, Gives text a) ∨ ∃ left error, options.apply (Setting.ofText text) = (left, some error) ∧
      Faulty text error.message ∧ Leaves text options left := by
  rcases ofText_cases text with ⟨form, mem, value, rfl, read⟩ | ⟨plain, read⟩
  · rw [read]
    have kind := mem
    simp only [Setting.forms, List.mem_cons, List.not_mem_nil, or_false] at kind
    rcases kind with rfl | rfl | rfl | rfl | rfl | rfl | rfl
    · by_cases older : value = "2"
      · exact .inl ⟨.language .v2, by rw [older]; exact .older⟩
      by_cases newer : value = "3"
      · exact .inl ⟨.language .v3, by rw [newer]; exact .newer⟩
      refine .inr ⟨options, .badLanguage, by simp [apply, older, newer], .language older newer, ?_⟩
      exact leaves_refl (ne_log mem fun _ => Setting.noConfusion) options
    · exact .inl ⟨_, .builtins value⟩
    · exact apply_limit .variableTypes value options
    · exact apply_limit .returnTypes value options
    · exact apply_limit .memberTypes value options
    · exact .inl ⟨_, .resourceLoader value⟩
    · exact apply_log value options
  · by_cases strict : text = "--strict-host"
    · exact .inl ⟨_, strict ▸ Gives.strict⟩
    by_cases lenient : text = "--lenient-host"
    · exact .inl ⟨_, lenient ▸ Gives.lenient⟩
    rw [if_neg strict, if_neg lenient] at read
    refine .inr ⟨options, .unknownSetting text, by rw [read]; rfl, .unknown plain strict lenient, ?_⟩
    exact leaves_refl (fun list => plain "--log=" (by simp [flags]) list) options

private theorem parse_cons_of_gives (h : Gives text a) (rest : List String) (options : Options) :
    options.parse (text :: rest) = (options.assign a).parse rest := by
  rw [parse, apply_of_gives h]

private theorem parse_cons_of_error {left : Options} {error : SettingError}
    (h : options.apply (Setting.ofText text) = (left, some error)) (rest : List String) :
    options.parse (text :: rest) = (left, some error) := by
  rw [parse, h]

end Options

end Apply

/-- What the last of the assignments to a field gives to it, or else what it had before. -/
def Options.lastGiven (options : Options) (given : List Assignment) (field : Field) : Assignment :=
  (given.filter (·.field = field)).getLast?.getD (options.read field)

private theorem Options.lastGiven_cons (options : Options) (a : Assignment) (given : List Assignment) (field : Field) :
    options.lastGiven (a :: given) field = (options.assign a).lastGiven given field := by
  rw [lastGiven, lastGiven, read_assign, List.filter_cons]
  by_cases same : a.field = field
  · simp [same, List.getLast?_cons]
  · simp [same]

private theorem Options.parse_gives {texts : List String} {given : List Assignment} (h : List.Forall₂ Gives texts given)
    (options : Options) : ∃ final, options.parse texts = (final, none) ∧
      ∀ field, final.read field = options.lastGiven given field := by
  induction h generalizing options with
  | nil => exact ⟨options, rfl, fun _ => rfl⟩
  | cons gives _ ih =>
    obtain ⟨final, run, reads⟩ := ih (options.assign _)
    refine ⟨final, by rw [parse_cons_of_gives gives, run], fun field => ?_⟩
    rw [reads field, lastGiven_cons]

/-- The settings that come before the first that has a fault are applied, if there is such a one. -/
theorem Options.parse_cases (texts : List String) (options : Options) :
    (∃ given, List.Forall₂ Gives texts given) ∨
      ∃ before text after given kept left error, texts = before ++ text :: after ∧
        List.Forall₂ Gives before given ∧ options.parse before = (kept, none) ∧
        options.parse texts = (left, some error) ∧ Faulty text error.message ∧ Leaves text kept left := by
  induction texts generalizing options with
  | nil => exact .inl ⟨[], .nil⟩
  | cons text rest ih =>
    rcases options.apply_cases text with ⟨a, gives⟩ | ⟨left, error, run, faulty, leaves⟩
    · rcases ih (options.assign a) with ⟨given, all⟩ |
        ⟨before, faulted, after, given, kept, left, error, rfl, all, first, run, faulty, leaves⟩
      · exact .inl ⟨a :: given, .cons gives all⟩
      · refine .inr ⟨text :: before, faulted, after, a :: given, kept, left, error, rfl, .cons gives all, ?_, ?_,
          faulty, leaves⟩
        · rw [parse_cons_of_gives gives, first]
        · rw [parse_cons_of_gives gives, run]
    · exact .inr ⟨[], text, rest, [], options, left, error, rfl, .nil, rfl, parse_cons_of_error run rest, faulty,
        leaves⟩

/-- All settings are accepted when each gives a value to a field, and then every field has what the last setting
for it gives. Otherwise the first setting with a fault ends the reading with a message about this fault, and the
options are what the settings before it make of them, but for the log: a list of categories has taken effect up
to the one that is unknown. -/
theorem rejected_setting_changes_log_only (options : Options) (texts : List String) :
    ((options.parse texts).2 = none ↔ ∃ given, List.Forall₂ Gives texts given) ∧
    (∀ given, List.Forall₂ Gives texts given → ∃ final, options.parse texts = (final, none) ∧
      ∀ field, final.read field = options.lastGiven given field) ∧
    ∀ left error, options.parse texts = (left, some error) → ∃ before text after kept,
      texts = before ++ text :: after ∧ options.parse before = (kept, none) ∧ Faulty text error.message ∧
        Leaves text kept left := by
  refine ⟨⟨fun accepted => ?_, fun ⟨given, all⟩ => ?_⟩, fun given all => Options.parse_gives all options,
    fun left error run => ?_⟩
  · rcases options.parse_cases texts with all | ⟨_, _, _, _, _, left, error, -, -, -, run, -⟩
    · exact all
    · rw [run] at accepted
      cases accepted
  · obtain ⟨final, run, -⟩ := Options.parse_gives all options
    rw [run]
  · rcases options.parse_cases texts with ⟨given, all⟩ |
      ⟨before, text, after, _, kept, _, _, split, -, first, ended, faulty, leaves⟩
    · obtain ⟨final, accepted, -⟩ := Options.parse_gives all options
      rw [accepted] at run
      cases run
    · rw [ended] at run
      cases run
      exact ⟨before, text, after, kept, split, first, faulty, leaves⟩

/-- A language is set, and a list of categories is rejected before another language comes. -/
theorem rejected_setting_changes_log_only_at_list : ∃ left error before text after kept,
    Options.parse {} ["--lang=2", "--log=units,queue", "--lang=3"] = (left, some error) ∧
      ["--lang=2", "--log=units,queue", "--lang=3"] = before ++ text :: after ∧
      Options.parse {} before = (kept, none) ∧ Faulty text error.message ∧ Leaves text kept left ∧
      left.language = .v2 ∧ error.message = "unknown log category 'queue'" := by
  have run : Options.parse {} ["--lang=2", "--log=units,queue", "--lang=3"] =
      ({ language := .v2, log := ⟨false, true, false, false⟩ }, some (.unknownCategory "queue")) := by
    decide +kernel
  obtain ⟨before, text, after, kept, split, first, faulty, leaves⟩ :=
    (rejected_setting_changes_log_only {} ["--lang=2", "--log=units,queue", "--lang=3"]).2.2 _ _ run
  exact ⟨_, _, before, text, after, kept, run, split, first, faulty, leaves, rfl, by decide +kernel⟩

/-- A list of categories that is rejected turns off what it does not name. -/
theorem rejected_list_turns_off_categories :
    Options.parse {} ["--log=units,queue"] =
        ({ log := ⟨false, true, false, false⟩ }, some (.unknownCategory "queue")) ∧
      Options.parse {} [] = ({}, none) ∧ ({ log := ⟨false, true, false, false⟩ } : Options) ≠ {} := by
  decide +kernel

end Typeflow
