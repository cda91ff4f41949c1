import Indentation.Grammar.Build

/-! # Expressions and statements of the core language

Every function takes the number of steps that it may still take down. -/

namespace Indentation.Grammar

mutual

/-- Expressions between commas. -/
def sequence (fuel : Nat) (ps : List Piece) : Parsed :=
  match fuel with
  | 0 => none
  | fuel + 1 => do
    let (first, ps) ← assignment fuel ps
    if nextIs "," ps then
      let (rest, ps) ← commaRest fuel ps
      return (group "sequence_expression" (first ++ rest), ps)
    else return (first, ps)

def commaRest (fuel : Nat) (ps : List Piece) : Parsed :=
  match fuel with
  | 0 => none
  | fuel + 1 =>
    if nextIs "," ps then do
      let (comma, ps) ← take? "," ps
      let (next, ps) ← assignment fuel ps
      let (rest, ps) ← commaRest fuel ps
      return (comma ++ next ++ rest, ps)
    else some ([], ps)

def assignment (fuel : Nat) (ps : List Piece) : Parsed :=
  match fuel with
  | 0 => none
  | fuel + 1 =>
    if arrowNext ps then arrow fuel ps
    else do
      let (left, ps) ← conditional fuel ps
      match ps with
      | p :: rest =>
        if p.key = "=" then
          if isLiteral left then none
          let (right, ps) ← assignment fuel rest
          return (group "assignment_expression"
            (asField "left" left ++ token p ++ asField "right" right), ps)
        else if assignsWith p.key then
          let (right, ps) ← assignment fuel rest
          return (group "augmented_assignment_expression"
            (asField "left" left ++ asField "operator" (token p) ++ asField "right" right), ps)
        else return (left, ps)
      | [] => return (left, ps)

def arrow (fuel : Nat) (ps : List Piece) : Parsed :=
  match fuel with
  | 0 => none
  | fuel + 1 => do
    let (head, ps) ←
      if nextIs "(" ps then do
        let (parameters, ps) ← parameters fuel ps
        pure (asField "parameters" parameters, ps)
      else do
        let (parameter, ps) ← name? "identifier" ps
        pure (asField "parameter" parameter, ps)
    let (arrow, ps) ← take? "=>" ps
    let (body, ps) ← if nextIs "\x7b" ps then block fuel ps else assignment fuel ps
    return (group "arrow_function" (head ++ arrow ++ asField "body" body), ps)

def conditional (fuel : Nat) (ps : List Piece) : Parsed :=
  match fuel with
  | 0 => none
  | fuel + 1 => do
    let (test, ps) ← binary fuel 0 ps
    if nextIs "?" ps then
      let (question, ps) ← take? "?" ps
      let (yes, ps) ← assignment fuel ps
      let (colon, ps) ← take? ":" ps
      let (no, ps) ← assignment fuel ps
      return (group "ternary_expression" (asField "condition" test ++ question ++
        asField "consequence" yes ++ colon ++ asField "alternative" no), ps)
    else return (test, ps)

/-- Operators that bind at least so tight. -/
def binary (fuel least : Nat) (ps : List Piece) : Parsed :=
  match fuel with
  | 0 => none
  | fuel + 1 => do
    let (left, ps) ← unary fuel ps
    binaryRest fuel least left ps

def binaryRest (fuel least : Nat) (left : List Node) (ps : List Piece) : Parsed :=
  match fuel with
  | 0 => none
  | fuel + 1 =>
    match ps with
    | [] => some (left, ps)
    | p :: rest =>
      match tightness? p.key with
      | none => some (left, ps)
      | some tightness =>
        if tightness < least then some (left, ps)
        else do
          let (right, ps) ← binary fuel (rightTightness p.key tightness) rest
          let whole := group "binary_expression"
            (asField "left" left ++ asField "operator" (token p) ++ asField "right" right)
          binaryRest fuel least whole ps

def unary (fuel : Nat) (ps : List Piece) : Parsed :=
  match fuel with
  | 0 => none
  | fuel + 1 =>
    match ps with
    | [] => none
    | p :: rest =>
      if isPrefix p.key then do
        let (argument, ps) ← unary fuel rest
        return (group "unary_expression"
          (asField "operator" (token p) ++ asField "argument" argument), ps)
      else if p.key = "++" || p.key = "--" then do
        let (argument, ps) ← unary fuel rest
        return (group "update_expression"
          (asField "operator" (token p) ++ asField "argument" argument), ps)
      else do
        let (operand, ps) ← access fuel true ps
        match ps with
        | q :: rest =>
          if !q.fresh && (q.key = "++" || q.key = "--") then
            return (group "update_expression"
              (asField "argument" operand ++ asField "operator" (token q)), rest)
          else return (operand, ps)
        | [] => return (operand, ps)

/-- An operand with what is accessed and, if wanted, called behind it. -/
def access (fuel : Nat) (calls : Bool) (ps : List Piece) : Parsed :=
  match fuel with
  | 0 => none
  | fuel + 1 => do
    let (operand, ps) ← if nextIs "new" ps then creation fuel ps else primary fuel ps
    accessRest fuel calls operand ps

def accessRest (fuel : Nat) (calls : Bool) (object : List Node) (ps : List Piece) : Parsed :=
  match fuel with
  | 0 => none
  | fuel + 1 =>
    match ps with
    | [] => some (object, ps)
    | p :: rest =>
      match p.key, calls with
      | "", _ =>
        if p.form = .template then
          accessRest fuel calls (group "call_expression" (asField "function" object ++
            asField "arguments" (term "template_string" p))) rest
        else some (object, ps)
      | ".", _ =>
        match rest with
        | q :: rest =>
          if q.form = .word then
            accessRest fuel calls (group "member_expression" (asField "object" object ++ token p ++
              asField "property" (term "property_identifier" q))) rest
          else none
        | [] => none
      | "[", _ => do
        let (index, ps) ← sequence fuel rest
        let (close, ps) ← take? "]" ps
        accessRest fuel calls (group "subscript_expression" (asField "object" object ++ token p ++
          asField "index" index ++ close)) ps
      | "(", true => do
        let (arguments, ps) ← arguments fuel ps
        accessRest fuel calls (group "call_expression" (asField "function" object ++
          asField "arguments" arguments)) ps
      | _, _ => some (object, ps)

def creation (fuel : Nat) (ps : List Piece) : Parsed :=
  match fuel with
  | 0 => none
  | fuel + 1 => do
    let (word, ps) ← take? "new" ps
    let (constructor, ps) ← access fuel false ps
    let head := word ++ asField "constructor" constructor
    if nextIs "(" ps then
      let (arguments, ps) ← arguments fuel ps
      return (group "new_expression" (head ++ asField "arguments" arguments), ps)
    else return (group "new_expression" head, ps)

def arguments (fuel : Nat) (ps : List Piece) : Parsed :=
  match fuel with
  | 0 => none
  | fuel + 1 => do
    let (open_, ps) ← take? "(" ps
    let (items, ps) ← items fuel ")" ps
    return (group "arguments" (open_ ++ items), ps)

/-- Elements with commas, any of which may be missing, and the closing mark. -/
def items (fuel : Nat) (close : String) (ps : List Piece) : Parsed :=
  match fuel with
  | 0 => none
  | fuel + 1 =>
    match ps with
    | [] => none
    | p :: rest =>
      if p.key = close then some (token p, rest)
      else if p.key = "," then do
        let (later, ps) ← items fuel close rest
        return (token p ++ later, ps)
      else do
        let (item, ps) ← element fuel ps
        if nextIs "," ps || nextIs close ps then
          let (later, ps) ← items fuel close ps
          return (item ++ later, ps)
        else none

def element (fuel : Nat) (ps : List Piece) : Parsed :=
  match fuel with
  | 0 => none
  | fuel + 1 =>
    if nextIs "..." ps then do
      let (dots, ps) ← take? "..." ps
      let (argument, ps) ← assignment fuel ps
      return (group "spread_element" (dots ++ argument), ps)
    else assignment fuel ps

def primary (fuel : Nat) (ps : List Piece) : Parsed :=
  match fuel with
  | 0 => none
  | fuel + 1 =>
    match ps with
    | [] => none
    | p :: rest =>
      match p.form, p.key with
      | .number, _ => some (term "number" p, rest)
      | .string, _ => some (term "string" p, rest)
      | .template, _ => some (term "template_string" p, rest)
      | _, "this" | _, "null" | _, "true" | _, "false" => some (term p.key p, rest)
      | _, "(" => do
        let (inner, ps) ← sequence fuel rest
        let (close, ps) ← take? ")" ps
        return (group "parenthesized_expression" (token p ++ inner ++ close), ps)
      | _, "[" => do
        let (elements, ps) ← items fuel "]" rest
        return (group "array" (token p ++ elements), ps)
      | _, "\x7b" => do
        let (members, ps) ← members fuel rest
        return (group "object" (token p ++ members), ps)
      | _, "function" => function fuel "function_expression" ps
      | _, "undefined" => some (term "undefined" p, rest)
      | _, _ => name? "identifier" ps

/-- Members of an object with commas, and the closing brace. -/
def members (fuel : Nat) (ps : List Piece) : Parsed :=
  match fuel with
  | 0 => none
  | fuel + 1 =>
    match ps with
    | [] => none
    | p :: rest =>
      if p.key = "\x7d" then some (token p, rest)
      else if p.key = "," then do
        let (later, ps) ← members fuel rest
        return (token p ++ later, ps)
      else do
        let (member, ps) ← member fuel p rest
        if nextIs "," ps || nextIs "\x7d" ps then
          let (later, ps) ← members fuel ps
          return (member ++ later, ps)
        else none

def member (fuel : Nat) (p : Piece) (rest : List Piece) : Parsed :=
  match fuel with
  | 0 => none
  | fuel + 1 =>
    if p.key = "..." then element fuel (p :: rest)
    else if nextIs ":" rest then do
      let key ←
        match p.form with
        | .word => some (term "property_identifier" p)
        | .string => some (term "string" p)
        | .number => some (term "number" p)
        | _ => none
      let (colon, ps) ← take? ":" rest
      let (value, ps) ← assignment fuel ps
      return (group "pair" (asField "key" key ++ colon ++ asField "value" value), ps)
    else name? "shorthand_property_identifier" (p :: rest)

def function (fuel : Nat) (kind : String) (ps : List Piece) : Parsed :=
  match fuel with
  | 0 => none
  | fuel + 1 => do
    let (word, ps) ← take? "function" ps
    let (name, ps) ←
      if nextIs "(" ps then pure ([], ps)
      else do
        let (name, ps) ← name? "identifier" ps
        pure (asField "name" name, ps)
    let (parameters, ps) ← parameters fuel ps
    let (body, ps) ← block fuel ps
    return (group kind (word ++ name ++ asField "parameters" parameters ++ asField "body" body), ps)

def parameters (fuel : Nat) (ps : List Piece) : Parsed :=
  match fuel with
  | 0 => none
  | fuel + 1 => do
    let (open_, ps) ← take? "(" ps
    let (rest, ps) ← parameterRest fuel ps
    return (group "formal_parameters" (open_ ++ rest), ps)

def parameterRest (fuel : Nat) (ps : List Piece) : Parsed :=
  match fuel with
  | 0 => none
  | fuel + 1 =>
    match ps with
    | [] => none
    | p :: rest =>
      if p.key = ")" then some (token p, rest)
      else do
        let (parameter, ps) ← parameter fuel ps
        if nextIs "," ps then
          let (comma, ps) ← take? "," ps
          let (later, ps) ← parameterRest fuel ps
          return (parameter ++ comma ++ later, ps)
        else
          let (close, ps) ← take? ")" ps
          return (parameter ++ close, ps)

def parameter (fuel : Nat) (ps : List Piece) : Parsed :=
  match fuel with
  | 0 => none
  | fuel + 1 =>
    if nextIs "..." ps then do
      let (dots, ps) ← take? "..." ps
      let (name, ps) ← name? "identifier" ps
      return (group "rest_pattern" (dots ++ name), ps)
    else do
      let (name, ps) ← name? "identifier" ps
      if nextIs "=" ps then
        let (sign, ps) ← take? "=" ps
        let (value, ps) ← assignment fuel ps
        return (group "assignment_pattern"
          (asField "left" name ++ sign ++ asField "right" value), ps)
      else return (name, ps)

def block (fuel : Nat) (ps : List Piece) : Parsed :=
  match fuel with
  | 0 => none
  | fuel + 1 => do
    let (open_, ps) ← take? "\x7b" ps
    let (inside, ps) ← statements fuel ps
    let (close, ps) ← take? "\x7d" ps
    return (group "statement_block" (open_ ++ inside ++ close), ps)

/-- Statements up to a closing brace or the next case. -/
def statements (fuel : Nat) (ps : List Piece) : Parsed :=
  match fuel with
  | 0 => none
  | fuel + 1 =>
    match ps with
    | [] => some ([], ps)
    | p :: _ =>
      if p.key = "\x7d" || p.key = "case" || p.key = "default" then some ([], ps)
      else do
        let (first, ps) ← statement fuel ps
        let (later, ps) ← statements fuel ps
        return (first ++ later, ps)

def statement (fuel : Nat) (ps : List Piece) : Parsed :=
  match fuel with
  | 0 => none
  | fuel + 1 =>
    match ps with
    | [] => none
    | p :: rest =>
      match p.key with
      | "\x7b" => block fuel ps
      | ";" => some (group "empty_statement" (token p), rest)
      | "var" => declaration fuel "variable_declaration" (token p) rest
      | "let" | "const" => declaration fuel "lexical_declaration" (asField "kind" (token p)) rest
      | "function" =>
        if nextIs "(" rest then expressionStatement fuel ps
        else function fuel "function_declaration" ps
      | "if" => branch fuel p rest
      | "while" => do
        let (condition, ps) ← condition fuel rest
        let (body, ps) ← statement fuel ps
        return (group "while_statement"
          (token p ++ asField "condition" condition ++ asField "body" body), ps)
      | "do" => do
        let (body, ps) ← statement fuel rest
        let (word, ps) ← take? "while" ps
        let (condition, ps) ← condition fuel ps
        let (semicolon, ps) ← if nextIs ";" ps then take? ";" ps else some ([], ps)
        return (group "do_statement" (token p ++ asField "body" body ++ word ++
          asField "condition" condition ++ semicolon), ps)
      | "for" => forLoop fuel p rest
      | "switch" => switch fuel p rest
      | "return" => jump fuel "return_statement" p rest
      | "throw" => jump fuel "throw_statement" p rest
      | "break" => leave "break_statement" p rest
      | "continue" => leave "continue_statement" p rest
      | _ => expressionStatement fuel ps

def expressionStatement (fuel : Nat) (ps : List Piece) : Parsed :=
  match fuel with
  | 0 => none
  | fuel + 1 => do
    let (expression, ps) ← sequence fuel ps
    let (ending, ps) ← ending? ps
    return (group "expression_statement" (expression ++ ending), ps)

/-- A jump that may take a value along on its line. -/
def jump (fuel : Nat) (kind : String) (p : Piece) (ps : List Piece) : Parsed :=
  match fuel with
  | 0 => none
  | fuel + 1 =>
    match ending? ps with
    | some (ending, ps) => some (group kind (token p ++ ending), ps)
    | none => do
      let (value, ps) ← sequence fuel ps
      let (ending, ps) ← ending? ps
      return (group kind (token p ++ value ++ ending), ps)

/-- A jump that may name a label. -/
def leave (kind : String) (p : Piece) (ps : List Piece) : Parsed :=
  match ending? ps with
  | some (ending, ps) => some (group kind (token p ++ ending), ps)
  | none => do
    let (label, ps) ← name? "statement_identifier" ps
    let (ending, ps) ← ending? ps
    return (group kind (token p ++ asField "label" label ++ ending), ps)

def condition (fuel : Nat) (ps : List Piece) : Parsed :=
  match fuel with
  | 0 => none
  | fuel + 1 => do
    let (open_, ps) ← take? "(" ps
    let (inner, ps) ← sequence fuel ps
    let (close, ps) ← take? ")" ps
    return (group "parenthesized_expression" (open_ ++ inner ++ close), ps)

def branch (fuel : Nat) (p : Piece) (ps : List Piece) : Parsed :=
  match fuel with
  | 0 => none
  | fuel + 1 => do
    let (condition, ps) ← condition fuel ps
    let (yes, ps) ← statement fuel ps
    let head := token p ++ asField "condition" condition ++ asField "consequence" yes
    if nextIs "else" ps then
      let (word, ps) ← take? "else" ps
      let (no, ps) ← statement fuel ps
      return (group "if_statement"
        (head ++ asField "alternative" (group "else_clause" (word ++ no))), ps)
    else return (group "if_statement" head, ps)

def declaration (fuel : Nat) (kind : String) (word : List Node) (ps : List Piece) : Parsed :=
  match fuel with
  | 0 => none
  | fuel + 1 => do
    let (declarators, ps) ← declarators fuel ps
    let (ending, ps) ← ending? ps
    return (group kind (word ++ declarators ++ ending), ps)

def declarators (fuel : Nat) (ps : List Piece) : Parsed :=
  match fuel with
  | 0 => none
  | fuel + 1 => do
    let (first, ps) ← declarator fuel ps
    if nextIs "," ps then
      let (comma, ps) ← take? "," ps
      let (later, ps) ← declarators fuel ps
      return (first ++ comma ++ later, ps)
    else return (first, ps)

def declarator (fuel : Nat) (ps : List Piece) : Parsed :=
  match fuel with
  | 0 => none
  | fuel + 1 => do
    let (name, ps) ← name? "identifier" ps
    if nextIs "=" ps then
      let (sign, ps) ← take? "=" ps
      let (value, ps) ← assignment fuel ps
      return (group "variable_declarator"
        (asField "name" name ++ sign ++ asField "value" value), ps)
    else return (group "variable_declarator" (asField "name" name), ps)

def forLoop (fuel : Nat) (p : Piece) (ps : List Piece) : Parsed :=
  match fuel with
  | 0 => none
  | fuel + 1 => do
    let (open_, ps) ← take? "(" ps
    let (start, ps) ← headerStart fuel ps
    let (test, ps) ← headerPart fuel "condition" ps
    let (step, ps) ←
      if nextIs ")" ps then pure ([], ps)
      else do
        let (step, ps) ← sequence fuel ps
        pure (asField "increment" step, ps)
    let (close, ps) ← take? ")" ps
    let (body, ps) ← statement fuel ps
    return (group "for_statement"
      (token p ++ open_ ++ start ++ test ++ step ++ close ++ asField "body" body), ps)

/-- What a loop starts with. A declaration takes its semicolon in. -/
def headerStart (fuel : Nat) (ps : List Piece) : Parsed :=
  match fuel with
  | 0 => none
  | fuel + 1 =>
    match ps with
    | [] => none
    | p :: rest =>
      match p.key with
      | "var" => do
        let (start, ps) ← declaration fuel "variable_declaration" (token p) rest
        return (asField "initializer" start, ps)
      | "let" | "const" => do
        let (start, ps) ← declaration fuel "lexical_declaration" (asField "kind" (token p)) rest
        return (asField "initializer" start, ps)
      | _ => headerPart fuel "initializer" ps

/-- A part of the header of a loop with its semicolon, which belongs to the condition. -/
def headerPart (fuel : Nat) (field : String) (ps : List Piece) : Parsed :=
  match fuel with
  | 0 => none
  | fuel + 1 =>
    match ps with
    | [] => none
    | p :: rest =>
      if p.key = ";" then some (asField field (group "empty_statement" (token p)), rest)
      else do
        let (part, ps) ← sequence fuel ps
        let (semicolon, ps) ← take? ";" ps
        let semicolon := if field = "condition" then asField field semicolon else semicolon
        return (asField field part ++ semicolon, ps)

def switch (fuel : Nat) (p : Piece) (ps : List Piece) : Parsed :=
  match fuel with
  | 0 => none
  | fuel + 1 => do
    let (value, ps) ← condition fuel ps
    let (open_, ps) ← take? "\x7b" ps
    let (cases, ps) ← cases fuel ps
    let (close, ps) ← take? "\x7d" ps
    let body := group "switch_body" (open_ ++ cases ++ close)
    return (group "switch_statement"
      (token p ++ asField "value" value ++ asField "body" body), ps)

def cases (fuel : Nat) (ps : List Piece) : Parsed :=
  match fuel with
  | 0 => none
  | fuel + 1 =>
    match ps with
    | [] => some ([], ps)
    | p :: rest =>
      match p.key with
      | "case" => do
        let (value, ps) ← sequence fuel rest
        let (colon, ps) ← take? ":" ps
        let (body, ps) ← statements fuel ps
        let (later, ps) ← cases fuel ps
        return (group "switch_case"
          (token p ++ asField "value" value ++ colon ++ eachAsField "body" body) ++ later, ps)
      | "default" => do
        let (colon, ps) ← take? ":" rest
        let (body, ps) ← statements fuel ps
        let (later, ps) ← cases fuel ps
        return (group "switch_default" (token p ++ colon ++ eachAsField "body" body) ++
          later, ps)
      | _ => some ([], ps)

end

end Indentation.Grammar
