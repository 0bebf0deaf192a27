import MeaningForest.Text.Basic

/-!
# Languages and message templates

Every message has a key and one template for each language.  A template names the places of its arguments by `%s`
(a text), `%d` (a number) and `%v` (either).
-/

namespace MeaningForest

/-- The languages with templates.  A program has one language at a time, and whatever words a message takes it as an
instance. -/
class inductive Language where
  | english
  | chinese
  deriving DecidableEq, Repr

/-- The messages. -/
inductive Notice where
  | expectedToken
  | unterminated
  | unexpectedMember
  | unexpectedTopLevel
  | missingFieldType
  | missingFieldInit
  | undecodableDocument
  | missingKey
  | redefining
  | duplicateMeaning
  | unknownParent
  | inheritanceCycle
  | duplicateMethod
  | overrideMissing
  | mustOverride
  | overrideSignature
  | methodTypeParams
  | unnamedParams
  | invalidParams
  | duplicateConstructor
  | memberConflict
  | superWithoutParent
  | missingSuper
  | arenaConflict
  | reservedMeaningName
  | brokenGeneratedCode
  | programSummary
  | buildSummary
  | checkSummary
  | versionSummary
  | inputSummary
  | outputSummary
  | logLevelSummary
  | noImportsSummary
  | version
  | usingConfig
  | noConfig
  | generating
  | checking
  | buildCompleted
  | checkCompleted
  | compileFailed
  | cannotAccess
  | cannotLoad
  | cannotReadFile
  | parseFailed
  | transpileFailed
  | noInputFiles
  | cannotCreateDir
  | cannotWriteFile
  | badArguments
  deriving DecidableEq, Repr

namespace Notice

/-- All messages. -/
def all : List Notice :=
  [expectedToken, unterminated, unexpectedMember, unexpectedTopLevel, missingFieldType, missingFieldInit,
    undecodableDocument, missingKey, redefining, duplicateMeaning, unknownParent, inheritanceCycle,
    duplicateMethod, overrideMissing, mustOverride, overrideSignature, methodTypeParams, unnamedParams,
    invalidParams, duplicateConstructor, memberConflict, superWithoutParent, missingSuper, arenaConflict,
    reservedMeaningName, brokenGeneratedCode, programSummary, buildSummary, checkSummary, versionSummary,
    inputSummary, outputSummary, logLevelSummary, noImportsSummary, version, usingConfig, noConfig,
    generating, checking, buildCompleted, checkCompleted, compileFailed, cannotAccess, cannotLoad,
    cannotReadFile, parseFailed, transpileFailed, noInputFiles, cannotCreateDir, cannotWriteFile,
    badArguments]

/-- The key of a message. -/
def key : Notice → Text
  | expectedToken => "parser.expected_token"
  | unterminated => "parser.unterminated"
  | unexpectedMember => "parser.unexpected_member"
  | unexpectedTopLevel => "parser.unexpected_toplevel"
  | missingFieldType => "parser.missing_field_type"
  | missingFieldInit => "parser.missing_field_init"
  | undecodableDocument => "parser.yaml_decode"
  | missingKey => "parser.yaml_missing_key"
  | redefining => "transpiler.redefining"
  | duplicateMeaning => "transpiler.duplicate_meaning"
  | unknownParent => "transpiler.unknown_parent"
  | inheritanceCycle => "transpiler.inheritance_cycle"
  | duplicateMethod => "transpiler.duplicate_method"
  | overrideMissing => "transpiler.override_missing"
  | mustOverride => "transpiler.must_override"
  | overrideSignature => "transpiler.override_signature"
  | methodTypeParams => "transpiler.method_type_params"
  | unnamedParams => "transpiler.unnamed_params"
  | invalidParams => "transpiler.invalid_params"
  | duplicateConstructor => "transpiler.duplicate_constructor"
  | memberConflict => "transpiler.member_conflict"
  | superWithoutParent => "transpiler.super_without_parent"
  | missingSuper => "transpiler.missing_super"
  | arenaConflict => "transpiler.arena_conflict"
  | reservedMeaningName => "transpiler.reserved_meaning_name"
  | brokenGeneratedCode => "transpiler.format_generated"
  | programSummary => "cli.description"
  | buildSummary => "cli.cmd_build"
  | checkSummary => "cli.cmd_check"
  | versionSummary => "cli.cmd_version"
  | inputSummary => "cli.arg_input"
  | outputSummary => "cli.opt_output"
  | logLevelSummary => "cli.opt_loglevel"
  | noImportsSummary => "cli.opt_no_imports"
  | version => "cli.version"
  | usingConfig => "cli.using_config"
  | noConfig => "cli.no_config"
  | generating => "cli.generating"
  | checking => "cli.checking"
  | buildCompleted => "cli.build_completed"
  | checkCompleted => "cli.check_completed"
  | compileFailed => "cli.compile_failed"
  | cannotAccess => "cli.cannot_access"
  | cannotLoad => "cli.cannot_load"
  | cannotReadFile => "cli.cannot_read_file"
  | parseFailed => "cli.parse_failed"
  | transpileFailed => "cli.transpile_failed"
  | noInputFiles => "cli.no_input_files"
  | cannotCreateDir => "cli.cannot_create_dir"
  | cannotWriteFile => "cli.cannot_write_file"
  | badArguments => "cli.bad_arguments"

/-- The message with a given key. -/
def ofKey? (k : Text) : Option Notice := all.find? (·.key == k)

/-- The English templates. -/
def english : Notice → Text
  | expectedToken => "expected %s, got %s"
  | unterminated => "unterminated %s"
  | unexpectedMember => "unexpected %s in meaning body"
  | unexpectedTopLevel => "unexpected %s at top level"
  | missingFieldType => "field '%s' has no type"
  | missingFieldInit => "field '%s' has an empty default value"
  | undecodableDocument => "invalid declaration document: %v"
  | missingKey => "%s: missing required key '%s'"
  | redefining => "Redefining '%s'"
  | duplicateMeaning => "meaning '%s' is already defined"
  | unknownParent => "meaning %s: parent meaning %s not found"
  | inheritanceCycle => "meaning %s: inheritance cycle %s"
  | duplicateMethod => "meaning %s: method '%s' is already defined"
  | overrideMissing => "meaning %s: '%s' is declared override but no ancestor defines it"
  | mustOverride => "meaning %s: method '%s' is inherited from %s and must be declared override"
  | overrideSignature => "meaning %s: override '%s' must have signature %s as declared in %s"
  | methodTypeParams => "meaning %s method %s: methods cannot have type parameters"
  | unnamedParams => "meaning %s: parameters of %s must be named"
  | invalidParams => "meaning %s: cannot parse %s: %v"
  | duplicateConstructor => "meaning %s: constructor is already defined"
  | memberConflict => "meaning %s: '%s' conflicts with a member of %s"
  | superWithoutParent => "meaning %s: super call without a parent meaning"
  | missingSuper => "meaning %s: constructor must call super(...) because the constructor of %s takes arguments"
  | arenaConflict => "arena name '%s' conflicts with a generated declaration"
  | reservedMeaningName => "meaning name '%s' is reserved"
  | brokenGeneratedCode => "generated code does not compile: %v"
  | programSummary => "Compile meaning hierarchies into Go code"
  | buildSummary => "Generate Go code for declaration files"
  | checkSummary => "Report problems without writing any files"
  | versionSummary => "Print version information"
  | inputSummary => "Input declaration file or directory"
  | outputSummary => "Output directory"
  | logLevelSummary => "Console output level"
  | noImportsSummary => "Skip goimports processing of generated code"
  | version => "meantree %s"
  | usingConfig => "Using config: %s"
  | noConfig => "No %s found, using defaults"
  | generating => "Generating: %s -> %s"
  | checking => "Checking: %s"
  | buildCompleted => "Generated %d files in %s"
  | checkCompleted => "Checked %d files, no problems found"
  | compileFailed => "compilation failed with %d errors"
  | cannotAccess => "cannot access %s"
  | cannotLoad => "cannot load config %s"
  | cannotReadFile => "cannot read file %s"
  | parseFailed => "%s: %d syntax errors"
  | transpileFailed => "%s: %d problems"
  | noInputFiles => "no .mt or .mt.yaml files found in %s"
  | cannotCreateDir => "cannot create output directory %s"
  | cannotWriteFile => "cannot write file %s"
  | badArguments => "invalid arguments"

/-- The Chinese templates. -/
def chinese : Notice → Text
  | expectedToken => "期望 %s, 实际是 %s"
  | unterminated => "%s 未结束"
  | unexpectedMember => "meaning 体中出现意外的 %s"
  | unexpectedTopLevel => "顶层出现意外的 %s"
  | missingFieldType => "字段 '%s' 缺少类型"
  | missingFieldInit => "字段 '%s' 的默认值为空"
  | undecodableDocument => "声明文档无效: %v"
  | missingKey => "%s: 缺少必需的键 '%s'"
  | redefining => "重复定义 '%s'"
  | duplicateMeaning => "meaning '%s' 已经定义"
  | unknownParent => "meaning %s: 父 meaning %s 未找到"
  | inheritanceCycle => "meaning %s: 继承成环 %s"
  | duplicateMethod => "meaning %s: 方法 '%s' 已经定义"
  | overrideMissing => "meaning %s: '%s' 声明为 override, 但没有祖先定义它"
  | mustOverride => "meaning %s: 方法 '%s' 继承自 %s, 必须声明为 override"
  | overrideSignature => "meaning %s: override '%s' 的签名必须是 %s, 与 %s 中的声明一致"
  | methodTypeParams => "meaning %s 方法 %s: 方法不能有类型参数"
  | unnamedParams => "meaning %s: %s 的参数必须具名"
  | invalidParams => "meaning %s: 无法解析 %s: %v"
  | duplicateConstructor => "meaning %s: 构造器已经定义"
  | memberConflict => "meaning %s: '%s' 与 %s 的成员冲突"
  | superWithoutParent => "meaning %s: 没有父 meaning 却调用了 super"
  | missingSuper => "meaning %s: %s 的构造器需要参数, 必须调用 super(...)"
  | arenaConflict => "arena 名称 '%s' 与生成的声明冲突"
  | reservedMeaningName => "meaning 名称 '%s' 是保留名"
  | brokenGeneratedCode => "生成的代码无法编译: %v"
  | programSummary => "将 meaning 层次结构编译为 Go 代码"
  | buildSummary => "为声明文件生成 Go 代码"
  | checkSummary => "只报告问题, 不写入文件"
  | versionSummary => "打印版本信息"
  | inputSummary => "输入的声明文件或目录"
  | outputSummary => "输出目录"
  | logLevelSummary => "控制台输出级别"
  | noImportsSummary => "生成代码时跳过 goimports 处理"
  | version => "meantree %s"
  | usingConfig => "使用配置: %s"
  | noConfig => "未找到 %s, 使用默认配置"
  | generating => "生成: %s -> %s"
  | checking => "检查: %s"
  | buildCompleted => "已生成 %d 个文件到 %s"
  | checkCompleted => "已检查 %d 个文件, 没有发现问题"
  | compileFailed => "编译失败, 共 %d 个错误"
  | cannotAccess => "无法访问 %s"
  | cannotLoad => "无法加载配置 %s"
  | cannotReadFile => "无法读取文件 %s"
  | parseFailed => "%s: %d 个语法错误"
  | transpileFailed => "%s: %d 个问题"
  | noInputFiles => "在 %s 中没有找到 .mt 或 .mt.yaml 文件"
  | cannotCreateDir => "无法创建输出目录 %s"
  | cannotWriteFile => "无法写入文件 %s"
  | badArguments => "参数无效"

/-- The template of a message in a language. -/
def template : Language → Notice → Text
  | .english => english
  | .chinese => chinese

end Notice

end MeaningForest
