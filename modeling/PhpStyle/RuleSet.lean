import PhpStyle.Config
import PhpStyle.Rules.ArrayBlankLines
import PhpStyle.Rules.CastSpacing
import PhpStyle.Rules.EnumCase
import PhpStyle.Rules.FunctionDoc
import PhpStyle.Rules.LicenseHeader
import PhpStyle.Rules.NullableDoc
import PhpStyle.Rules.ParamDoc
import PhpStyle.Rules.Psr4
import PhpStyle.Rules.Yoda

/-!
Which rules there are, and which of them a configuration asks for.
-/

namespace PhpStyle

namespace Rules

/-- How every rule is presented, in order of their codes. -/
def infos : List RuleInfo :=
  [NullableDoc.info, ParamDoc.info, ArrayBlankLines.info, EnumCase.info, FunctionDoc.info,
   CastSpacing.info, Psr4.info, LicenseHeader.info, Yoda.info]

def names : List String :=
  infos.map (·.name)

def functionDocOptions (c : RuleConfig) : FunctionDoc.Options where
  skipFullyTyped := c.flag "skip_fully_typed" true
  allowInTests := c.flag "allow_in_tests" true

def psr4Options (c : RuleConfig) : Psr4.Options :=
  let default : Psr4.Options := {}
  { base := (c.text? "base_path").map Path.mk
    manifest := (c.text? "manifest").getD default.manifest }

def licenseHeaderOptions (c : RuleConfig) : LicenseHeader.Options :=
  let default : LicenseHeader.Options := {}
  let fileNames := c.stringItems "file_names"
  { fileNames := if fileNames.isEmpty then default.fileNames else fileNames
    text := c.text? "text" }

/-- The rule called `name` with its options. -/
def byName? (name : String) (config : Option RuleConfig) : Option Rule :=
  let c := config.getD {}
  let all : List Rule :=
    [NullableDoc.rule, ParamDoc.rule, ArrayBlankLines.rule, EnumCase.rule,
     FunctionDoc.rule (functionDocOptions c), CastSpacing.rule ((c.natural? "spacing").getD 1),
     Psr4.rule (psr4Options c), LicenseHeader.rule (licenseHeaderOptions c), Yoda.rule]
  (all.find? (·.name == name)).map (·.withSeverity c.severity)

end Rules

/-- A ready choice of rules. -/
inductive Preset where
  | recommended | strict | minimal
  deriving DecidableEq, Repr

namespace Preset

def ofName? : String → Option Preset
  | "recommended" => some recommended
  | "strict" => some strict
  | "minimal" => some minimal
  | _ => none

/-- The names of the rules of a preset, in order. -/
def ruleNames : Preset → List String
  | recommended => [Rules.NullableDoc.info, Rules.ParamDoc.info, Rules.ArrayBlankLines.info,
      Rules.EnumCase.info, Rules.CastSpacing.info, Rules.Yoda.info].map (·.name)
  | strict => Rules.names
  | minimal => [Rules.NullableDoc.info, Rules.CastSpacing.info].map (·.name)

/-- The rules of a preset, with default options. -/
def rules (p : Preset) : List Rule :=
  p.ruleNames.filterMap (Rules.byName? · none)

end Preset

namespace Config

def chosenPreset (c : Config) : Preset :=
  (c.preset.bind Preset.ofName?).getD .recommended

/-- The rules outside the preset that are switched on, in order of their names. -/
def extraRuleNames (c : Config) : List String :=
  let base := c.chosenPreset.ruleNames
  ((c.rules.filter fun r => r.2.enabled == some true && !base.contains r.1).map (·.1)).mergeSort
    fun a b => a ≤ b

/-- The rules of the preset, by default the recommended ones, and then those switched on. -/
def ruleSet (c : Config) : List Rule :=
  (c.chosenPreset.ruleNames ++ c.extraRuleNames).filterMap fun n => Rules.byName? n (c.rule? n)

end Config

end PhpStyle
