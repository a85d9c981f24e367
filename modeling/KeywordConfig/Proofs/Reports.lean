import KeywordConfig.CommandLine

namespace KeywordConfig.CommandLine

end KeywordConfig.CommandLine
