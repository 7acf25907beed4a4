/-! The name under which the checker is called and configured. -/
namespace ScopeLint.Tool

def name : String := "frosted"

def version : String := "1.4.1"

end ScopeLint.Tool
