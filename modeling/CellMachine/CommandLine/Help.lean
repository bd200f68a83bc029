/-!
# Usage and help texts
-/

namespace CellMachine.CommandLine

/-- The name of the program and its version. -/
def versionText : String := "tvmi 0.3.0"

def usageText : String :=
  "\n".intercalate
    ["usage: tvmi [-h] [--profile \x7bdefault,small,checked\x7d]",
     "            [--memory-size MEMORY_SIZE] [--stack-size STACK_SIZE] [--checked]",
     "            [--trace] [--dump-regs] [--tokens] [--listing] [--verbose]",
     "            [--log-file LOG_FILE] [--version]",
     "            input"] ++ "\n"

def helpText : String :=
  usageText ++ "\n" ++ "\n".intercalate
    ["TinyVM bytecode interpreter",
     "",
     "positional arguments:",
     "  input                 Program source file (.vm extension optional)",
     "",
     "options:",
     "  -h, --help            show this help message and exit",
     "  --profile \x7bdefault,small,checked\x7d",
     "                        VM layout profile (default: default)",
     "  --memory-size MEMORY_SIZE",
     "                        Memory block size in bytes (e.g. 65536, 0x10000, 64K,",
     "                        64M)",
     "  --stack-size STACK_SIZE",
     "                        Stack size in bytes (e.g. 16K, 2M)",
     "  --checked             Bounds-check memory and stack accesses",
     "  --trace               Print every executed instruction to stderr",
     "  --dump-regs           Print registers and FLAGS to stderr after the run",
     "  --tokens              Dump lexed lines and exit (debug)",
     "  --listing             Dump the resolved program and exit (debug)",
     "  --verbose, -v         Print run details to stderr",
     "  --log-file LOG_FILE   Also write a DEBUG log to this file",
     "  --version             show program's version number and exit",
     "",
     "Profiles: default, small, checked"] ++ "\n"

end CellMachine.CommandLine
