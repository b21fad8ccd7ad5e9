/-
The rules of the parser. A rule is named without the suffix of its struct, and
has its alternatives in the order in which `matches_impl` tries them. What it
makes of a match is left open: a function of the parts and of the position
after them, for each alternative.

`StatementsPattern` repeats `StatementPattern` in a loop of its own, and
collects at least one. `AnyToken` is in no rule.
-/
import Pylang.Parser.Engine

namespace Pylang.Parse

open Pylang.Lex (TokenType Token)

inductive Rule
  | name | starTargetsTupleSeq | starTargetsListSeq | starAtom | tLookahead | tPrimary | targetWithStarAtom
  | starTarget | starTargets | fExpression | conversion | fStringReplacementField | fStringMiddle
  | fStringFormatSpec | fString | string | strings | starNamedExpression | starNamedExpressions | list
  | forIfClause | forIfClauses | listComp | tuple | group | genex | kvPair | doubleStarredKVPair
  | doubleStarredKVPairs | dict | set | dictComp | setComp | atom | namedExpression | kwargsOrStarred
  | starredExpression | kwargsOrDoubleStarred | kwargs | args | arguments | slice | slices | primary
  | awaitPrimary | power | factor | term | sum | shiftExpr | bitwiseAnd | bitwiseXor | bitwiseOr
  | eqBitwiseOr | notEqBitwiseOr | ltEqBitwiseOr | ltBitwiseOr | gtEqBitwiseOr | gtBitwiseOr | inBitwiseOr
  | notInBitwiseOr | isNotBitwiseOr | isBitwiseOr | compareOpBitwiseOrPair | comparisson | inversion
  | conjunction | disjunction | lambdaParam | lambdaParamNoDefault | lambdaParamWithDefault | lambdaStarEtc
  | lambdaParameters | lambdaParams | lambDef | expression | starExpression | starExpressions
  | singleSubscriptAttributeTarget | singleTarget | augAssign | yieldExpression | annotatedRhs | assignment
  | returnStatement | dottedName | dottedAsName | dottedAsNames | importName | importFromAsName
  | importFromAsNames | importFromTargets | importFrom | importStatement | raiseStatement | deleteAtom
  | deleteTarget | deleteTargets | deleteStatement | yieldStatement | assertStatement | globalStatement
  | nonLocalStatement | smallStatement | simpleStatement | annotationPattern | param | paramNoDefault | default
  | paramWithDefault | paramMaybeDefault | keywords | starEtc | slashWithDefault | slashNoDefault
  | parameters | params | block | functionName | functionDefinitionRawStatement | decorators
  | functionDefinitionStatement | elseBlock | elifStatement | ifStatement | classDefinitionRaw
  | classDefinition | forStatement | exceptBlock | finallyBlock | tryStatement | whileStatement | withItem
  | withStatement | compoundStatement | statement | statements | expressions | file
deriving DecidableEq

/-- The instances of the templates. A pack of patterns is a chain of `both`. -/
inductive Pattern
  | rule (r : Rule)
  | token (type : TokenType)
  /-- `AndLiteralV2` of a name. -/
  | keyword (word : String)
  /-- `NotAtPatternV2<ReservedKeywords>` -/
  | notReserved
  | both (head tail : Pattern)
  | oneOrMore (parts : Pattern)
  | zeroOrMore (parts : Pattern)
  | zeroOrOne (parts : Pattern)
  | applyInBetween (main between : Pattern)
  /-- Whether the result is a node. -/
  | or (node : Bool) (choices : Pattern)
  | group (parts : Pattern)
  | lookAhead (p : Pattern)
  | negativeLookAhead (p : Pattern)
deriving DecidableEq

namespace Pattern

/-- A pack of patterns; none is empty. -/
def pack : List Pattern → Pattern
  | [] => .notReserved
  | [p] => p
  | p :: ps => .both p (pack ps)

/-- The patterns of a pack. -/
def parts : Pattern → List Pattern
  | .both p q => p :: q.parts
  | p => [p]

end Pattern

open Pattern (pack)

/-- `ReservedKeywords` -/
def reservedKeywords : List String :=
  ["and", "as", "assert", "async", "await", "break", "class", "continue", "def", "del", "elif", "else", "except",
   "finally", "for", "from", "global", "if", "is", "import", "in", "lambda", "nonlocal", "not", "or", "pass",
   "raise", "return", "try", "while", "with", "yield"]

/-- The alternatives of a rule. -/
def Rule.alternatives : Rule → List Pattern
  | .name => [pack [.notReserved, .token .name]]
  | .starTargetsTupleSeq => [pack [.applyInBetween (.rule .starTarget) (.token .comma), .zeroOrOne (.token .comma)]]
  | .starTargetsListSeq => [pack [.applyInBetween (.rule .starTarget) (.token .comma), .zeroOrOne (.token .comma)]]
  | .starAtom => [.rule .name, pack [.token .lparen, .zeroOrOne (.rule .targetWithStarAtom), .token .rparen],
      pack [.token .lparen, .zeroOrOne (.rule .starTargetsTupleSeq), .token .rparen],
      pack [.token .lsqb, .zeroOrOne (.rule .starTargetsListSeq), .token .rsqb]]
  | .tLookahead => [.or false (pack [.token .lparen, .token .lsqb, .token .dot])]
  | .tPrimary => [pack [.rule .tPrimary, .token .dot, .token .name, .lookAhead (.rule .tLookahead)],
      pack [.rule .tPrimary, .token .lsqb, .rule .slices, .token .rsqb, .lookAhead (.rule .tLookahead)],
      pack [.rule .tPrimary, .rule .genex, .lookAhead (.rule .tLookahead)],
      pack [.rule .tPrimary, .token .lparen, .zeroOrOne (.rule .arguments), .token .rparen,
        .lookAhead (.rule .tLookahead)],
      pack [.rule .atom, .lookAhead (.rule .tLookahead)]]
  | .targetWithStarAtom => [
      pack [.rule .tPrimary, .token .dot, .token .name, .negativeLookAhead (.rule .tLookahead)],
      pack [.rule .tPrimary, .token .lsqb, .rule .slices, .token .rsqb, .negativeLookAhead (.rule .tLookahead)],
      .rule .starAtom]
  | .starTarget => [pack [.token .star, .negativeLookAhead (.token .star), .rule .starTarget],
      .rule .targetWithStarAtom]
  | .starTargets => [pack [.rule .starTarget, .negativeLookAhead (.token .comma)],
      pack [.rule .starTarget, .zeroOrMore (pack [.token .comma, .rule .starTarget]), .zeroOrOne (.token .comma)]]
  | .fExpression => [.or true (pack [.rule .yieldExpression, .rule .starExpressions])]
  | .conversion => [.token .name]
  | .fStringReplacementField => [
      pack [.token .lbrace, .rule .fExpression, .zeroOrOne (.token .equal), .zeroOrOne (pack [.token .exclamation,
        .rule .conversion]), .zeroOrOne (pack [.token .colon, .zeroOrMore (.rule .fStringFormatSpec)]), .token .rbrace]]
  | .fStringMiddle => [.rule .fStringReplacementField, .token .fstringMiddle]
  | .fStringFormatSpec => [.token .fstringMiddle, .rule .fStringReplacementField]
  | .fString => [pack [.token .fstringStart, .zeroOrMore (.rule .fStringMiddle), .token .fstringEnd]]
  | .string => [.token .string]
  | .strings => [.oneOrMore (.or true (pack [.rule .fString, .rule .string]))]
  | .starNamedExpression => [pack [.token .star, .rule .bitwiseOr], .rule .namedExpression]
  | .starNamedExpressions => [
      pack [.applyInBetween (.rule .starNamedExpression) (.token .comma), .zeroOrOne (.token .comma)]]
  | .list => [pack [.token .lsqb, .zeroOrOne (.rule .starNamedExpressions), .token .rsqb]]
  | .forIfClause => [
      pack [.keyword "for", .rule .starTargets, .keyword "in", .rule .disjunction, .zeroOrMore (pack [.keyword "if",
        .rule .disjunction])]]
  | .forIfClauses => [.oneOrMore (.rule .forIfClause)]
  | .listComp => [pack [.token .lsqb, .rule .namedExpression, .rule .forIfClauses, .token .rsqb]]
  | .tuple => [
      pack [.token .lparen, .zeroOrOne (pack [.rule .starNamedExpression, .token .comma,
        .zeroOrOne (.rule .starNamedExpressions)]), .token .rparen]]
  | .group => [
      pack [.token .lparen, .or true (pack [.rule .yieldExpression, .rule .namedExpression]), .token .rparen]]
  | .genex => [pack [.token .lparen, .rule .namedExpression, .rule .forIfClauses, .token .rparen]]
  | .kvPair => [pack [.rule .expression, .token .colon, .rule .expression]]
  | .doubleStarredKVPair => [pack [.token .doublestar, .rule .bitwiseOr], .rule .kvPair]
  | .doubleStarredKVPairs => [
      pack [.applyInBetween (.rule .doubleStarredKVPair) (.token .comma), .zeroOrOne (.token .comma)]]
  | .dict => [pack [.token .lbrace, .zeroOrOne (.rule .doubleStarredKVPairs), .token .rbrace]]
  | .set => [pack [.token .lbrace, .rule .starNamedExpressions, .token .rbrace]]
  | .dictComp => [pack [.token .lbrace, .rule .kvPair, .rule .forIfClauses, .token .rbrace]]
  | .setComp => [pack [.token .lbrace, .rule .namedExpression, .rule .forIfClauses, .token .rbrace]]
  | .atom => [.rule .name, .rule .strings, .token .number,
      .or true (pack [.rule .tuple, .rule .group, .rule .genex]), .or true (pack [.rule .list, .rule .listComp]),
      .or true (pack [.rule .dict, .rule .set, .rule .dictComp, .rule .setComp]), .token .ellipsis]
  | .namedExpression => [pack [.token .name, .token .colonequal, .rule .expression],
      pack [.rule .expression, .negativeLookAhead (.token .colonequal)]]
  | .kwargsOrStarred => [pack [.token .name, .token .equal, .rule .expression], .rule .starredExpression]
  | .starredExpression => [pack [.token .star, .rule .expression]]
  | .kwargsOrDoubleStarred => [pack [.token .name, .token .equal, .rule .expression],
      pack [.token .doublestar, .rule .expression]]
  | .kwargs => [
      pack [.applyInBetween (.rule .kwargsOrStarred) (.token .comma), .token .comma,
        .applyInBetween (.rule .kwargsOrDoubleStarred) (.token .comma)],
      .applyInBetween (.rule .kwargsOrStarred) (.token .comma),
      .applyInBetween (.rule .kwargsOrDoubleStarred) (.token .comma)]
  | .args => [
      pack [.applyInBetween (.or false (pack [.rule .starredExpression, .group (pack [.rule .namedExpression,
        .negativeLookAhead (.token .equal)])])) (.token .comma), .zeroOrOne (pack [.token .comma, .rule .kwargs])],
      .rule .kwargs]
  | .arguments => [pack [.rule .args, .zeroOrOne (.token .comma), .lookAhead (.token .rparen)]]
  | .slice => [
      pack [.zeroOrOne (.rule .expression), .token .colon, .zeroOrOne (.rule .expression),
        .zeroOrOne (pack [.token .colon, .zeroOrOne (.rule .expression)])],
      .rule .expression]
  | .slices => [pack [.rule .slice, .negativeLookAhead (.token .comma)],
      pack [.applyInBetween (.rule .slice) (.token .comma), .zeroOrOne (.token .comma)]]
  | .primary => [pack [.rule .primary, .token .dot, .rule .name], pack [.rule .primary, .rule .genex],
      pack [.rule .primary, .token .lparen, .zeroOrOne (.rule .arguments), .token .rparen],
      pack [.rule .primary, .token .lsqb, .rule .slices, .token .rsqb], .rule .atom]
  | .awaitPrimary => [pack [.keyword "await", .rule .primary], .rule .primary]
  | .power => [pack [.rule .awaitPrimary, .token .doublestar, .rule .factor], .rule .awaitPrimary]
  | .factor => [pack [.token .plus, .rule .factor], pack [.token .minus, .rule .factor],
      pack [.token .tilde, .rule .factor], .rule .power]
  | .term => [pack [.rule .term, .token .star, .rule .factor], pack [.rule .term, .token .slash, .rule .factor],
      pack [.rule .term, .token .doubleslash, .rule .factor], pack [.rule .term, .token .percent, .rule .factor],
      pack [.rule .term, .token .at, .rule .factor], .rule .factor]
  | .sum => [pack [.rule .sum, .token .plus, .rule .term], pack [.rule .sum, .token .minus, .rule .term], .rule .term]
  | .shiftExpr => [pack [.rule .shiftExpr, .token .leftshift, .rule .sum],
      pack [.rule .shiftExpr, .token .rightshift, .rule .sum], .rule .sum]
  | .bitwiseAnd => [pack [.rule .bitwiseAnd, .token .amper, .rule .shiftExpr], .rule .shiftExpr]
  | .bitwiseXor => [pack [.rule .bitwiseXor, .token .circumflex, .rule .bitwiseAnd], .rule .bitwiseAnd]
  | .bitwiseOr => [pack [.rule .bitwiseOr, .token .vbar, .rule .bitwiseXor], .rule .bitwiseXor]
  | .eqBitwiseOr => [pack [.token .eqequal, .rule .bitwiseOr]]
  | .notEqBitwiseOr => [pack [.token .notequal, .rule .bitwiseOr]]
  | .ltEqBitwiseOr => [pack [.token .lessequal, .rule .bitwiseOr]]
  | .ltBitwiseOr => [pack [.token .less, .rule .bitwiseOr]]
  | .gtEqBitwiseOr => [pack [.token .greaterequal, .rule .bitwiseOr]]
  | .gtBitwiseOr => [pack [.token .greater, .rule .bitwiseOr]]
  | .inBitwiseOr => [pack [.keyword "in", .rule .bitwiseOr]]
  | .notInBitwiseOr => [pack [.keyword "not", .keyword "in", .rule .bitwiseOr]]
  | .isNotBitwiseOr => [pack [.keyword "is", .keyword "not", .rule .bitwiseOr]]
  | .isBitwiseOr => [pack [.keyword "is", .rule .bitwiseOr]]
  | .compareOpBitwiseOrPair => [.rule .eqBitwiseOr, .rule .notEqBitwiseOr, .rule .ltEqBitwiseOr, .rule .ltBitwiseOr,
      .rule .gtEqBitwiseOr, .rule .gtBitwiseOr, .rule .notInBitwiseOr, .rule .inBitwiseOr, .rule .isNotBitwiseOr,
      .rule .isBitwiseOr]
  | .comparisson => [pack [.rule .bitwiseOr, .oneOrMore (.rule .compareOpBitwiseOrPair)], .rule .bitwiseOr]
  | .inversion => [pack [.keyword "not", .rule .comparisson], .rule .comparisson]
  | .conjunction => [pack [.rule .inversion, .oneOrMore (pack [.keyword "and", .rule .inversion])], .rule .inversion]
  | .disjunction => [pack [.rule .conjunction, .oneOrMore (pack [.keyword "or", .rule .conjunction])],
      .rule .conjunction]
  | .lambdaParam => [.rule .name]
  | .lambdaParamNoDefault => [pack [.rule .lambdaParam, .token .comma],
      pack [.rule .lambdaParam, .lookAhead (.token .colon)]]
  | .lambdaParamWithDefault => [pack [.rule .lambdaParam, .rule .default, .token .comma],
      pack [.rule .lambdaParam, .rule .default, .lookAhead (.token .colon)]]
  | .lambdaStarEtc => []
  | .lambdaParameters => [
      pack [.oneOrMore (.rule .lambdaParamNoDefault), .zeroOrMore (.rule .lambdaParamWithDefault),
        .zeroOrOne (.rule .lambdaStarEtc)]]
  | .lambdaParams => [.rule .lambdaParameters]
  | .lambDef => [pack [.keyword "lambda", .zeroOrOne (.rule .lambdaParams), .token .colon, .rule .expression]]
  | .expression => [pack [.rule .disjunction, .keyword "if", .rule .disjunction, .keyword "else", .rule .expression],
      .rule .disjunction, .rule .lambDef]
  | .starExpression => [.rule .expression]
  | .starExpressions => [
      pack [.rule .starExpression, .oneOrMore (pack [.token .comma, .rule .starExpression]),
        .zeroOrOne (.token .comma)],
      pack [.rule .starExpression, .token .comma], .rule .starExpression]
  | .singleSubscriptAttributeTarget => [
      pack [.rule .tPrimary, .token .dot, .rule .name, .negativeLookAhead (.rule .tLookahead)],
      pack [.rule .tPrimary, .token .lsqb, .rule .slices, .token .rsqb, .negativeLookAhead (.rule .tLookahead)]]
  | .singleTarget => [.rule .singleSubscriptAttributeTarget, .rule .name,
      pack [.token .lparen, .rule .singleTarget, .token .rparen]]
  | .augAssign => [.token .plusequal, .token .minequal, .token .starequal, .token .atequal, .token .slashequal,
      .token .percentequal, .token .amperequal, .token .vbarequal, .token .circumflexequal, .token .leftshiftequal,
      .token .rightshiftequal, .token .doublestarequal, .token .doubleslashequal]
  | .yieldExpression => [pack [.keyword "yield", .keyword "from", .rule .expression],
      pack [.keyword "yield", .zeroOrOne (.rule .starExpressions)]]
  | .annotatedRhs => [.rule .yieldExpression, .rule .yieldExpression]
  | .assignment => [
      pack [.rule .name, .token .colon, .rule .expression, .zeroOrOne (pack [.token .equal, .rule .annotatedRhs])],
      pack [.oneOrMore (pack [.rule .starTargets, .token .equal]), .or true (pack [.rule .yieldExpression,
        .rule .starExpressions])],
      pack [.rule .singleTarget, .rule .augAssign, .or true (pack [.rule .yieldExpression, .rule .starExpressions])]]
  | .returnStatement => [pack [.keyword "return", .zeroOrOne (.rule .starExpressions)]]
  | .dottedName => [pack [.rule .dottedName, .token .dot, .token .name], .token .name]
  | .dottedAsName => [pack [.rule .dottedName, .zeroOrOne (pack [.keyword "as", .rule .name])]]
  | .dottedAsNames => [.applyInBetween (.rule .dottedAsName) (.token .comma)]
  | .importName => [pack [.keyword "import", .rule .dottedAsNames]]
  | .importFromAsName => [pack [.rule .name, .zeroOrOne (pack [.keyword "as", .token .name])]]
  | .importFromAsNames => [.applyInBetween (.rule .importFromAsName) (.token .comma)]
  | .importFromTargets => [
      pack [.token .lparen, .rule .importFromAsNames, .zeroOrOne (.token .comma), .token .rparen],
      pack [.rule .importFromAsNames, .negativeLookAhead (.token .comma)], .token .star]
  | .importFrom => [
      pack [.keyword "from", .zeroOrMore (.or false (pack [.token .dot, .token .ellipsis])), .rule .dottedName,
        .keyword "import", .rule .importFromTargets],
      pack [.keyword "from", .zeroOrMore (.or false (pack [.token .dot, .token .ellipsis])), .keyword "import",
        .rule .importFromTargets]]
  | .importStatement => [.rule .importName, .rule .importFrom]
  | .raiseStatement => [
      pack [.keyword "raise", .rule .expression, .zeroOrOne (pack [.keyword "from", .rule .expression])],
      .keyword "raise"]
  | .deleteAtom => [.rule .name, pack [.token .lparen, .rule .deleteTarget, .token .rparen],
      pack [.token .lparen, .zeroOrOne (.rule .deleteTargets), .token .rparen],
      pack [.token .lsqb, .zeroOrOne (.rule .deleteTargets), .token .rsqb]]
  | .deleteTarget => [pack [.rule .tPrimary, .token .dot, .token .name, .negativeLookAhead (.rule .tLookahead)],
      pack [.rule .tPrimary, .token .lsqb, .rule .slices, .token .rsqb, .negativeLookAhead (.rule .tLookahead)],
      .rule .deleteAtom]
  | .deleteTargets => [pack [.applyInBetween (.rule .deleteTarget) (.token .comma), .zeroOrOne (.token .comma)]]
  | .deleteStatement => [
      pack [.keyword "del", .rule .deleteTargets, .lookAhead (.or false (pack [.token .semi, .token .newline]))]]
  | .yieldStatement => [.rule .yieldExpression]
  | .assertStatement => [
      pack [.keyword "assert", .rule .expression, .zeroOrOne (pack [.token .comma, .rule .expression])]]
  | .globalStatement => [pack [.keyword "global", .applyInBetween (.rule .name) (.token .comma)]]
  | .nonLocalStatement => [pack [.keyword "nonlocal", .applyInBetween (.rule .name) (.token .comma)]]
  | .smallStatement => [.rule .assignment, .rule .starExpressions, .rule .returnStatement, .rule .importStatement,
      .rule .raiseStatement, .keyword "pass", .rule .deleteStatement, .rule .yieldStatement, .rule .assertStatement,
      .keyword "break", .keyword "continue", .rule .globalStatement, .rule .nonLocalStatement]
  | .simpleStatement => [pack [.rule .smallStatement, .negativeLookAhead (.token .semi), .token .newline],
      pack [.applyInBetween (.rule .smallStatement) (.token .semi), .zeroOrOne (.token .semi), .token .newline]]
  | .annotationPattern => [pack [.token .colon, .rule .expression]]
  | .param => [pack [.rule .name, .zeroOrOne (.rule .annotationPattern)]]
  | .paramNoDefault => [pack [.rule .param, .token .comma], pack [.rule .param, .lookAhead (.token .rparen)]]
  | .default => [pack [.token .equal, .rule .expression]]
  | .paramWithDefault => [pack [.rule .param, .rule .default, .token .comma],
      pack [.rule .param, .rule .default, .lookAhead (.token .rparen)]]
  | .paramMaybeDefault => [pack [.rule .param, .zeroOrOne (.rule .default), .token .comma],
      pack [.rule .param, .zeroOrOne (.rule .default), .lookAhead (.token .rparen)]]
  | .keywords => [pack [.token .doublestar, .rule .paramNoDefault]]
  | .starEtc => [
      pack [.token .star, .rule .paramNoDefault, .zeroOrMore (.rule .paramMaybeDefault), .zeroOrOne (.rule .keywords)],
      pack [.token .star, .token .comma, .zeroOrMore (.rule .paramMaybeDefault), .zeroOrOne (.rule .keywords)],
      .rule .keywords]
  | .slashWithDefault => [
      pack [.zeroOrMore (.rule .paramNoDefault), .oneOrMore (.rule .paramWithDefault), .token .slash, .token .comma],
      pack [.zeroOrMore (.rule .paramNoDefault), .oneOrMore (.rule .paramWithDefault), .token .slash,
        .lookAhead (.token .rparen)]]
  | .slashNoDefault => [pack [.oneOrMore (.rule .paramNoDefault), .token .slash, .token .comma],
      pack [.oneOrMore (.rule .paramNoDefault), .token .slash, .lookAhead (.token .rparen)]]
  | .parameters => [
      pack [.rule .slashNoDefault, .zeroOrMore (.rule .paramNoDefault), .zeroOrMore (.rule .paramWithDefault),
        .zeroOrOne (.rule .starEtc)],
      pack [.rule .slashWithDefault, .zeroOrMore (.rule .paramWithDefault), .zeroOrOne (.rule .starEtc)],
      pack [.oneOrMore (.rule .paramNoDefault), .zeroOrMore (.rule .paramWithDefault), .zeroOrOne (.rule .starEtc)],
      pack [.oneOrMore (.rule .paramWithDefault), .zeroOrOne (.rule .starEtc)], .rule .starEtc]
  | .params => [.rule .parameters]
  | .block => [pack [.token .newline, .token .indent, .rule .statements, .token .dedent], .rule .simpleStatement]
  | .functionName => [.rule .name]
  | .functionDefinitionRawStatement => [
      pack [.keyword "def", .token .name, .token .lparen, .zeroOrOne (.rule .params), .token .rparen,
        .zeroOrOne (pack [.token .rarrow, .rule .expression]), .token .colon, .rule .block],
      pack [.keyword "async", .keyword "def", .token .name, .token .lparen, .zeroOrOne (.rule .params),
        .token .rparen, .zeroOrOne (pack [.token .rarrow, .rule .expression]), .token .colon, .rule .block]]
  | .decorators => [.oneOrMore (pack [.token .at, .rule .namedExpression, .token .newline])]
  | .functionDefinitionStatement => [pack [.rule .decorators, .rule .functionDefinitionRawStatement],
      .rule .functionDefinitionRawStatement]
  | .elseBlock => [pack [.keyword "else", .token .colon, .rule .block]]
  | .elifStatement => [
      pack [.keyword "elif", .rule .namedExpression, .token .colon, .rule .block, .rule .elifStatement],
      pack [.keyword "elif", .rule .namedExpression, .token .colon, .rule .block, .zeroOrOne (.rule .elseBlock)]]
  | .ifStatement => [pack [.keyword "if", .rule .namedExpression, .token .colon, .rule .block, .rule .elifStatement],
      pack [.keyword "if", .rule .namedExpression, .token .colon, .rule .block, .zeroOrOne (.rule .elseBlock)]]
  | .classDefinitionRaw => [
      pack [.keyword "class", .token .name, .zeroOrOne (pack [.token .lparen, .zeroOrOne (.rule .arguments),
        .token .rparen]), .token .colon, .rule .block]]
  | .classDefinition => [pack [.rule .decorators, .rule .classDefinitionRaw], .rule .classDefinitionRaw]
  | .forStatement => [
      pack [.keyword "for", .rule .starTargets, .keyword "in", .rule .starExpressions, .token .colon, .rule .block,
        .zeroOrOne (.rule .elseBlock)],
      pack [.keyword "async", .keyword "for", .rule .starTargets, .keyword "in", .rule .starExpressions,
        .token .colon, .rule .block, .zeroOrOne (.rule .elseBlock)]]
  | .exceptBlock => [
      pack [.keyword "except", .rule .expression, .zeroOrOne (pack [.keyword "as", .token .name]), .token .colon,
        .rule .block],
      pack [.keyword "except", .token .colon, .rule .block]]
  | .finallyBlock => [pack [.keyword "finally", .token .colon, .rule .block]]
  | .tryStatement => [pack [.keyword "try", .token .colon, .rule .block, .rule .finallyBlock],
      pack [.keyword "try", .token .colon, .rule .block, .oneOrMore (.rule .exceptBlock),
        .zeroOrOne (.rule .elseBlock), .zeroOrOne (.rule .finallyBlock)]]
  | .whileStatement => [
      pack [.keyword "while", .rule .namedExpression, .token .colon, .rule .block, .zeroOrOne (.rule .elseBlock)]]
  | .withItem => [
      pack [.rule .expression, .keyword "as", .rule .starTarget, .lookAhead (.or false (pack [.token .comma,
        .token .rparen, .token .colon]))],
      .rule .expression]
  | .withStatement => [
      pack [.keyword "with", .token .lparen, .applyInBetween (.rule .withItem) (.token .comma),
        .zeroOrOne (.token .comma), .token .rparen, .token .colon, .rule .block],
      pack [.keyword "with", .applyInBetween (.rule .withItem) (.token .comma), .token .colon, .rule .block],
      pack [.keyword "async", .keyword "with", .token .lparen,
        .oneOrMore (.applyInBetween (.rule .withItem) (.token .comma)), .zeroOrOne (.token .comma), .token .rparen,
        .token .colon, .rule .block],
      pack [.keyword "async", .keyword "with", .applyInBetween (.rule .withItem) (.token .comma), .token .colon,
        .rule .block]]
  | .compoundStatement => [.rule .functionDefinitionStatement, .rule .ifStatement, .rule .classDefinition,
      .rule .withStatement, .rule .forStatement, .rule .tryStatement, .rule .whileStatement]
  | .statement => [.rule .compoundStatement, .rule .simpleStatement]
  | .statements => [.oneOrMore (.rule .statement)]
  | .expressions => [pack [.applyInBetween (.rule .expression) (.token .comma), .zeroOrOne (.token .comma)],
      pack [.rule .expression, .token .comma], .rule .expression]
  | .file => [pack [.zeroOrOne (.rule .statements), .token .endmarker]]

/-- The result is a node or tokens. -/
def Rule.memoized : Rule → Bool
  | .starAtom | .tPrimary | .targetWithStarAtom | .starTarget | .starTargets | .fExpression | .strings
  | .starNamedExpression | .tuple | .group | .dictComp | .atom | .namedExpression | .primary | .awaitPrimary
  | .power | .factor | .term | .sum | .shiftExpr | .bitwiseAnd | .bitwiseXor | .bitwiseOr | .eqBitwiseOr
  | .notEqBitwiseOr | .ltEqBitwiseOr | .ltBitwiseOr | .gtEqBitwiseOr | .gtBitwiseOr | .inBitwiseOr
  | .notInBitwiseOr | .isNotBitwiseOr | .isBitwiseOr | .comparisson | .inversion | .conjunction | .disjunction
  | .expression | .starExpression | .starExpressions | .singleSubscriptAttributeTarget | .singleTarget
  | .yieldExpression | .annotatedRhs | .assignment | .dottedName | .deleteAtom | .deleteTarget
  | .yieldStatement | .smallStatement | .annotationPattern | .default | .functionDefinitionRawStatement
  | .functionDefinitionStatement | .compoundStatement => true
  | _ => false

def Pattern.memoized : Pattern → Bool
  | .rule r => r.memoized
  | .or node _ => node
  | _ => false

def Pattern.IsRule (p : Pattern) : Prop := ∃ r : Rule, p = .rule r

/-- What the rules make of what they match, and of the positions before and after it. -/
structure Actions (V : Type) extends Values V where
  node : Rule → Nat → List V → Nat → Nat → Option V

namespace Actions

variable {V : Type} (acts : Actions V)

/-- The alternatives from the `n`-th on. -/
def alternativesFrom (r : Rule) : List Pattern → Nat → List (List Pattern × (List V → Nat → Nat → Option V))
  | [], _ => []
  | p :: ps, n => (p.parts, acts.node r n) :: alternativesFrom r ps (n + 1)

def body : Pattern → Body Pattern V
  | .rule r => .alternatives (acts.alternativesFrom r r.alternatives 0)
  | .token type => .singleToken [type]
  | .keyword word => .andLiteral [.name] fun text => text = word.toList
  | .notReserved => .notAt fun text => reservedKeywords.any fun word => text = word.toList
  | .oneOrMore ps => .oneOrMore ps.parts
  | .zeroOrMore ps => .zeroOrMore ps.parts
  | .zeroOrOne ps => .zeroOrOne ps.parts
  | .applyInBetween main between => .applyInBetween main between
  | .or _ ps => .alternatives (ps.parts.map fun p => ([p], fun vs _ _ => vs.head?))
  | .group ps => .alternatives [(ps.parts, fun vs _ _ => some (acts.tuple vs))]
  | .both _ _ => .alternatives []
  | .lookAhead p => .lookAhead p
  | .negativeLookAhead p => .negativeLookAhead p

/-- The grammar of the parser. -/
def grammar : Grammar Pattern V := { acts.toValues with body := acts.body, memoized := Pattern.memoized }

end Actions

end Pylang.Parse
