/-!
# Programs that come with the machine

`evaluatorText` is the language's evaluator as a machine program.  It is entered
at `main` without a return address, with an expression and then a scope pushed,
and leaves the value in the accumulator.  Its procedure `eval` has this frame:

    BP+3  the expression        BP-1  the evaluated operator
    BP+2  the scope             BP-2  the arguments so far
    BP+1  the return address    BP-3  the forms still to come
    BP    the caller's BP       BP-4  scratch

In a tail position it overwrites expression and scope and jumps back to
`eval_top`, so that a loop written as a tail call runs in one frame.  A special
form that lacks operands stops the machine with a message.

`factorialText` computes a factorial by plain recursion; it is entered at `main`
with a number pushed.
-/

namespace LispEngines.Machine

/-- The evaluator as assembly text. -/
def evaluatorText : String := "main:
  ENTER 0  LEA 2  PUSH  LEA 1  PUSH  JSR eval
  ADJ 2  EXIT
eval:
  ENTER 4
eval_top:
  LEA 3  CELLTYPE  PUSH  DATA $CellType.SYMBOL  EQK  BNZ eval_symbol
  DATA $CellType.LIST  EQ  BNZ eval_list
  LEA 3  LEAVE
eval_symbol:
  LEA 3  PUSH  LEA 2  ENVLOOKUP  LEAVE
eval_list:
  LEA 3  CELLCOUNT  BNZ eval_form
  DATA Nil  LEAVE
eval_form:
  LEA 3  PUSH  DATA $0  CELLINDEX  ADJ 1  SEA -4  CELLTYPE  PUSH
  DATA $CellType.SYMBOL  EQ  BZ eval_apply
  LEA -4  PUSH  DATA \"quote\"  EQK  BNZ form_quote
  DATA \"if\"  EQK  BNZ form_if
  DATA \"define\"  EQK  BNZ form_define
  DATA \"set!\"  EQK  BNZ form_set
  DATA \"lambda\"  EQK  BNZ form_lambda
  DATA \"macro\"  EQK  BNZ form_macro
  DATA \"begin\"  EQ  BNZ form_begin
  JMP eval_apply
form_quote:
  ADJ 1  LEA 3  CELLCOUNT  PUSH  DATA $2  LT  BNZ malformed_quote
  LEA 3  PUSH  DATA $1  CELLINDEX  LEAVE
form_if:
  ADJ 1  LEA 3  CELLCOUNT  PUSH  DATA $2  LT  BNZ malformed_if
  LEA 3  PUSH  DATA $1  CELLINDEX  ADJ 1  PUSH  LEA 2  PUSH  JSR eval
  ADJ 2  PUSH  DATA False  EQ  BNZ if_alt
  LEA 3  CELLCOUNT  PUSH  DATA $3  LT  BNZ malformed_if_conseq
  LEA 3  PUSH  DATA $2  CELLINDEX  ADJ 1  SEA 3  JMP eval_top
if_alt:
  LEA 3  CELLCOUNT  PUSH  DATA $4  LT  BNZ if_nil
  LEA 3  PUSH  DATA $3  CELLINDEX  ADJ 1  SEA 3  JMP eval_top
if_nil:
  DATA Nil  LEAVE
form_define:
  ADJ 1  LEA 3  CELLCOUNT  PUSH  DATA $3  LT  BNZ malformed_define
  LEA 2  PUSH  LEA 3  PUSH  DATA $1  CELLINDEX  ADJ 1  PUSH  LEA 3
  PUSH  DATA $2  CELLINDEX  ADJ 1  PUSH  LEA 2  PUSH  JSR eval
  ADJ 2  ENVDEFINE  LEAVE
form_set:
  ADJ 1  LEA 3  CELLCOUNT  PUSH  DATA $3  LT  BNZ malformed_set
  LEA 2  PUSH  LEA 3  PUSH  DATA $1  CELLINDEX  ADJ 1  PUSH  LEA 3
  PUSH  DATA $2  CELLINDEX  ADJ 1  PUSH  LEA 2  PUSH  JSR eval
  ADJ 2  ENVSET  LEAVE
form_lambda:
  ADJ 1  LEA 3  CELLCOUNT  PUSH  DATA $3  LT  BNZ malformed_lambda
  LEA 3  PUSH  DATA $CellType.LAMBDA  CELLSETTYPE  LEA 2  CELLSETENV
  POP  LEAVE
form_macro:
  ADJ 1  LEA 3  CELLCOUNT  PUSH  DATA $3  LT  BNZ malformed_macro
  LEA 3  PUSH  DATA $CellType.MACRO  CELLSETTYPE  LEA 2  CELLSETENV
  POP  LEAVE
form_begin:
  LEA 3  PUSH  CELLTAIL  ADJ 1  SEA -3
begin_loop:
  LEA -3  CELLCOUNT  PUSH  DATA $1  LE  BNZ begin_last
  LEA -3  PUSH  CELLHEAD  ADJ 1  PUSH  LEA 2  PUSH  JSR eval
  ADJ 2  LEA -3  PUSH  CELLTAIL  ADJ 1  SEA -3  JMP begin_loop
begin_last:
  LEA -3  CELLCOUNT  BZ begin_empty
  LEA -3  PUSH  CELLHEAD  ADJ 1  SEA 3  JMP eval_top
begin_empty:
  DATA Nil  LEAVE
malformed_quote:
  HALTMSG \"malformed form: 'quote' is missing operand 1\"
malformed_if:
  HALTMSG \"malformed form: 'if' is missing operand 1\"
malformed_if_conseq:
  HALTMSG \"malformed form: 'if' is missing operand 2\"
malformed_define:
  HALTMSG \"malformed form: 'define' needs a name and a value\"
malformed_set:
  HALTMSG \"malformed form: 'set!' needs a name and a value\"
malformed_lambda:
  HALTMSG \"malformed form: 'lambda' needs parameters and a body\"
malformed_macro:
  HALTMSG \"malformed form: 'macro' needs parameters and a body\"
eval_apply:
  LEA -4  PUSH  LEA 2  PUSH  JSR eval
  ADJ 2  SEA -1  CELLTYPE  PUSH  DATA $CellType.MACRO  EQ
  BNZ apply_macro
  DATA $CellType.LIST  CELLNEW  SEA -2  LEA 3  PUSH  CELLTAIL  ADJ 1
  SEA -3
args_loop:
  LEA -3  CELLCOUNT  BZ args_done
  LEA -3  PUSH  CELLHEAD  ADJ 1  PUSH  LEA 2  PUSH  JSR eval
  ADJ 2  SEA -4  LEA -2  PUSH  LEA -4  CELLPUSH  ADJ 1  LEA -3  PUSH
  CELLTAIL  ADJ 1  SEA -3  JMP args_loop
args_done:
  LEA -1  CELLTYPE  PUSH  DATA $CellType.LAMBDA  EQ  BNZ apply_lambda
  LEA 2  PUSH  LEA -2  PUSH  LEA -1  CELLINVOKE  LEAVE
apply_lambda:
  LEA -1  PUSH  DATA $1  CELLINDEX  ADJ 1  PUSH  LEA -2  PUSH  LEA -1
  ENVNEW  SEA 2  LEA -1  PUSH  DATA $2  CELLINDEX  ADJ 1  SEA 3
  JMP eval_top
apply_macro:
  LEA -1  PUSH  DATA $1  CELLINDEX  ADJ 1  PUSH  LEA 3  PUSH  CELLTAIL
  ADJ 1  PUSH  LEA -1  ENVNEW  SEA -4  LEA -1  PUSH  DATA $2  CELLINDEX
  ADJ 1  PUSH  LEA -4  PUSH  JSR eval
  ADJ 2  SEA 3  JMP eval_top
"

/-- The factorial as assembly text. -/
def factorialText : String := "main:
  ENTER 0  LEA 1  PUSH  JSR fac
  ADJ 1  EXIT
fac:
  ENTER 0  LEA 2  PUSH  DATA $1  LE  BZ fac_recurse
  DATA $1  LEAVE
fac_recurse:
  LEA 2  PUSH  LEA 2  PUSH  DATA $1  SUB  PUSH  JSR fac
  ADJ 1  MUL  LEAVE
"

end LispEngines.Machine
